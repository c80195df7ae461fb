import PmxAgents.Lib.Text
import PmxAgents.Shared.Envelope

/-!
# Ephemeral agents

`core.spawn.ephemeral` starts an agent with `systemd-run`: a template name is checked
against the allowlist of sibling units, the envelope is staged in a file, and the file
becomes the standard input of the unit.

The allowlist was made for units. A configured template counts as the beginning of a name,
and the persistent siblings are in it too; the binary and the profile are then taken from
whatever name was let through.

## Implementation notes

What comes from outside is an argument: the decoding of a nested envelope, the encoding of
an envelope, the outcome of staging it and that of `systemd-run`.
-/

namespace PmxAgents.Core.Spawn

open Lib Lib.Cbor Shared

/-! ## The allowlist -/

structure Manager where
  allowed : List String
  ephemeralPrefixes : List String
  deriving DecidableEq, Repr

def newManager (allowed ephemeralTemplates : List String) : Manager :=
  ⟨allowed, ephemeralTemplates.map (Text.trimSuffix · ".service")⟩

def Manager.allow (m : Manager) (unit : String) : Bool :=
  unit ∈ m.allowed || m.ephemeralPrefixes.any fun stem => stem.toList.isPrefixOf unit.toList

/-! ## Templates -/

structure TemplateProfile where
  user : String
  group : String
  serviceType : String
  remainAfterExit : Bool
  restart : String
  appArmorProfile : String
  defaultRuntime : Int
  deriving DecidableEq, Repr

/-- A profile of the root user that runs once. -/
def oneshotProfile : TemplateProfile := ⟨"root", "root", "oneshot", false, "", "", 0⟩

def defaultTemplateProfiles : List (String × TemplateProfile) :=
  [("pmx-hardware-installer@.service", oneshotProfile),
    ("pmx-updater@.service", oneshotProfile),
    ("pmx-console-broker@.service",
      ⟨"root", "root", "simple", false, "no", "pmx-console-broker", 14400⟩)]

def profileForTemplate (template : String) : TemplateProfile :=
  (defaultTemplateProfiles.lookup template).getD oneshotProfile

def instantiateTemplate (template jobID : String) : String :=
  Text.trimSuffix (Text.trimSuffix template ".service") "@" ++ "@" ++ jobID ++ ".service"

def templateToBinary (template : String) : String :=
  "/usr/local/bin/" ++ Text.trimSuffix (Text.trimSuffix template "@.service") ".service"

def boolSystemd (v : Bool) : String := if v then "yes" else "no"

/-- The properties of a profile, with the time limit of the request if it has one. -/
def TemplateProfile.properties (p : TemplateProfile) (runtimeMaxSec : Int) : List String :=
  ["--property=Type=" ++ p.serviceType, "--property=User=" ++ p.user,
    "--property=Group=" ++ p.group,
    "--property=RemainAfterExit=" ++ boolSystemd p.remainAfterExit] ++
  (if p.restart = "" then [] else ["--property=Restart=" ++ p.restart]) ++
  (if p.appArmorProfile = "" then [] else ["--property=AppArmorProfile=" ++ p.appArmorProfile]) ++
  let runtimeMax := if runtimeMaxSec ≤ 0 then p.defaultRuntime else runtimeMaxSec
  if 0 < runtimeMax then ["--property=RuntimeMaxSec=" ++ toString runtimeMax] else []

structure EphemeralRequest where
  template : String
  jobID : String
  envelope : Envelope
  runtimeMaxSec : Int

def buildSpawnArgs (req : EphemeralRequest) (profile : TemplateProfile) (envFilePath : String) :
    List String :=
  ["systemd-run", "--unit=" ++ instantiateTemplate req.template req.jobID,
    "--property=StandardInput=file:" ++ envFilePath] ++
  profile.properties req.runtimeMaxSec ++ [templateToBinary req.template]

/-! ## Staging -/

/-- The last element of a path text. -/
def base (path : String) : String :=
  if path = "" then "."
  else
    let last := ((path.toList.reverse.dropWhile (· = '/')).takeWhile (· ≠ '/')).reverse
    if last = [] then "/" else String.ofList last

def defaultEnvFileDir : String := "/run/pmx-cloud"

/-- The name of the staged file. The slash that is the base of a path of slashes goes into the
separator. -/
def envFileName (jobID : String) : String :=
  if base jobID = "/" then ".env" else base jobID ++ ".env"

theorem base_ne_empty (path : String) : base path ≠ "" := by
  rw [base]
  split_ifs with hempty
  · decide
  · dsimp only
    split_ifs with hlast
    · decide
    · exact fun h => hlast (String.ofList_injective h)

/-- Job ids share a staged file exactly if their last elements are the same. -/
theorem envFileName_inj {a b : String} : envFileName a = envFileName b ↔ base a = base b := by
  have hslash : ∀ c, c ≠ "" → ".env" ≠ c ++ ".env" := by
    intro c hc h
    have hlength := congrArg (fun t => t.toList.length) h
    simp only [String.toList_append, List.length_append] at hlength
    exact hc (String.toList_inj.mp (List.length_eq_zero_iff.mp (by omega)))
  rw [envFileName, envFileName]
  split_ifs with ha hb hb
  · exact iff_of_true rfl (ha.trans hb.symm)
  · exact iff_of_false (hslash _ (base_ne_empty b)) fun h => hb (h ▸ ha)
  · exact iff_of_false (hslash _ (base_ne_empty a)).symm fun h => ha (h ▸ hb)
  · exact String.append_left_inj _

def envFilePath (jobID : String) : String := defaultEnvFileDir ++ "/" ++ envFileName jobID

/-! ## The command -/

structure Host where
  /-- A nested envelope from its text, or a message. -/
  nested : String → Except String Envelope
  marshal : Envelope → Except String Bytes
  stage : Except String Unit
  systemdRun : Except String Unit
  quote : String → String

/-- The answer, and the command line that was run. -/
abbrev Ran (ε : Type) := Except ε Unit × Option (List String)

def spawn (host : Host) (req : EphemeralRequest) : Ran String :=
  if req.template = "" then (.error "spawn: template is required", none)
  else if req.jobID = "" then (.error "spawn: job ID is required", none)
  else
    match host.marshal req.envelope, host.stage with
    | .error err, _ => (.error ("spawn: marshal envelope: " ++ err), none)
    | .ok _, .error err => (.error ("spawn: write envelope file: " ++ err), none)
    | .ok _, .ok () =>
        let unit := "--unit=" ++ instantiateTemplate req.template req.jobID
        let args := buildSpawnArgs req (profileForTemplate req.template) (envFilePath req.jobID)
        match host.systemdRun with
        | .error err => (.error ("spawn: systemd-run " ++ unit ++ ": " ++ err), some args)
        | .ok () => (.ok (), some args)

/-- An error body: its code and its message. -/
abbrev ErrorBody := String × String

/-- A parameter that is a string; anything else counts as the empty one. -/
def stringParam (env : Envelope) (key : String) : String :=
  match (env.params.getD []).lookup key with
  | some (.string s) => s
  | _ => ""

/-- The envelope for the child and the job id of its unit. -/
def childEnvelope (host : Host) (env : Envelope) : Except String (Envelope × String) :=
  let nested := stringParam env "envelope"
  if nested = "" then .ok (env, env.jobID)
  else
    match host.nested nested with
    | .error err => .error err
    | .ok child => .ok (child, if child.jobID = "" then env.jobID else child.jobID)

/-- The handler of `core.spawn.ephemeral`. -/
def spawnEphemeral (m : Manager) (host : Host) (env : Envelope) : Ran ErrorBody :=
  let template := stringParam env "template"
  if template = "" then (.error ("MISSING_PARAM", "params.template is required"), none)
  else if ¬ m.allow template then
    (.error ("NOT_ALLOWED", "template " ++ host.quote template ++ " is not in the allowlist"), none)
  else
    match childEnvelope host env with
    | .error err => (.error ("BAD_ENVELOPE", err), none)
    | .ok (child, jobID) =>
        match spawn host ⟨template, jobID, child, 0⟩ with
        | (.error err, ran) => (.error ("SPAWN_FAILED", err), ran)
        | (.ok (), ran) => (.ok (), ran)

/-! ## What is started -/

/-- The configured template with this stem. -/
def templateOf (x : String) : String := "pmx-" ++ x ++ "@.service"

/-- The command line starts the binary of a configured template with the template's own profile,
and the request named that template. -/
def AsConfigured (ephemeralTemplates : List String) (template : String) (args : List String) :
    Prop :=
  ∃ x, template = templateOf x ∧ templateOf x ∈ ephemeralTemplates ∧
    ∃ unit path, args = ["systemd-run", "--unit=" ++ unit, "--property=StandardInput=file:" ++ path]
      ++ (profileForTemplate (templateOf x)).properties 0 ++ ["/usr/local/bin/pmx-" ++ x]

section Started
variable {m : Manager} {host : Host} {env : Envelope} {args : List String}

theorem spawn_ran {req : EphemeralRequest} (h : (spawn host req).2 = some args) :
    args = buildSpawnArgs req (profileForTemplate req.template) (envFilePath req.jobID) := by
  rw [spawn] at h
  split_ifs at h
  cases hmarshal : host.marshal req.envelope with
  | error err =>
      rw [hmarshal] at h
      cases h
  | ok bytes =>
      cases hstage : host.stage with
      | error err =>
          rw [hmarshal, hstage] at h
          cases h
      | ok _ =>
          rw [hmarshal, hstage] at h
          cases hrun : host.systemdRun with
          | error err =>
              rw [hrun] at h
              exact (Option.some.inj h).symm
          | ok _ =>
              rw [hrun] at h
              exact (Option.some.inj h).symm

/-- Whatever is run is the request of a template that was let through. -/
theorem spawnEphemeral_ran (h : (spawnEphemeral m host env).2 = some args) :
    m.allow (stringParam env "template") ∧ ∃ jobID child, args =
      buildSpawnArgs ⟨stringParam env "template", jobID, child, 0⟩
        (profileForTemplate (stringParam env "template")) (envFilePath jobID) := by
  rw [spawnEphemeral] at h
  split_ifs at h with hempty hallow
  refine ⟨by simpa using hallow, ?_⟩
  cases hchild : childEnvelope host env with
  | error err =>
      rw [hchild] at h
      cases h
  | ok child =>
      rw [hchild] at h
      have hran : (spawn host ⟨stringParam env "template", child.2, child.1, 0⟩).2 = some args := by
        rcases hspawn : spawn host ⟨stringParam env "template", child.2, child.1, 0⟩ with
          ⟨reply, ran⟩
        simp only [hspawn] at h
        cases reply <;> exact h
      exact ⟨child.2, child.1, spawn_ran hran⟩

/-- The binary of a template has its stem, unless the stem itself ends like a unit. -/
theorem templateToBinary_templateOf_iff (x : String) :
    templateToBinary (templateOf x) = "/usr/local/bin/pmx-" ++ x ↔
      ¬ ".service".toList <:+ ("pmx-" ++ x).toList := by
  have hstem : templateToBinary (templateOf x) =
      "/usr/local/bin/" ++ Text.trimSuffix ("pmx-" ++ x) ".service" :=
    congrArg (fun stem => "/usr/local/bin/" ++ Text.trimSuffix stem ".service")
      (Text.trimSuffix_append ("pmx-" ++ x) "@.service")
  have hpmx : "/usr/local/bin/pmx-" = "/usr/local/bin/" ++ "pmx-" := by decide
  rw [hstem, hpmx, String.append_assoc]
  exact (String.append_right_inj _).trans (Text.trimSuffix_eq_self_iff (by decide))

end Started

/-- What a command starts is as configured exactly if the template is a configured one and its stem
does not end like a unit. -/
theorem asConfigured_iff (allowed ephemeralTemplates : List String) (host : Host) (env : Envelope)
    (args : List String)
    (hran : (spawnEphemeral (newManager allowed ephemeralTemplates) host env).2 = some args) :
    AsConfigured ephemeralTemplates (stringParam env "template") args ↔
      ∃ x, stringParam env "template" = templateOf x ∧ templateOf x ∈ ephemeralTemplates ∧
        ¬ ".service".toList <:+ ("pmx-" ++ x).toList := by
  obtain ⟨-, jobID, child, rfl⟩ := spawnEphemeral_ran hran
  constructor
  · rintro ⟨x, htemplate, hmem, unit, path, hargs⟩
    refine ⟨x, htemplate, hmem, (templateToBinary_templateOf_iff x).mp ?_⟩
    have hlast := congrArg List.getLast? hargs
    rw [buildSpawnArgs, List.getLast?_concat, List.getLast?_concat, htemplate] at hlast
    exact Option.some.inj hlast
  · rintro ⟨x, htemplate, hmem, hstem⟩
    refine ⟨x, htemplate, hmem, instantiateTemplate (templateOf x) jobID, envFilePath jobID, ?_⟩
    rw [buildSpawnArgs, htemplate, (templateToBinary_templateOf_iff x).mpr hstem]

/-- A host on which everything succeeds. -/
def plainHost : Host :=
  ⟨fun _ => .error "nested envelope", fun _ => .ok [], .ok (), .ok (),
    fun s => "\"" ++ s ++ "\""⟩

/-- An envelope of the command for a template. -/
def spawnEnvelope (template : String) : Envelope where
  version := supportedVersion
  jobID := "7"
  issuedAt := 0
  expiresAt := 0
  issuer := ""
  audience := "pmx-core"
  host := ""
  command := "core.spawn.ephemeral"
  params := some [("template", .string template)]
  signature := ""

/-- A configured template. -/
theorem asConfigured_updater :
    ∃ args, (spawnEphemeral (newManager ["pmx-telemetry.service"] ["pmx-updater@.service"])
        plainHost (spawnEnvelope "pmx-updater@.service")).2 = some args ∧
      AsConfigured ["pmx-updater@.service"] "pmx-updater@.service" args :=
  ⟨_, rfl, (asConfigured_iff ["pmx-telemetry.service"] ["pmx-updater@.service"] plainHost
    (spawnEnvelope "pmx-updater@.service") _ rfl).mpr
      ⟨"updater", by decide, by decide, by decide⟩⟩

/-- A persistent sibling is started once more as root, and an instance of the console broker runs
another binary without its AppArmor profile and its time limit. -/
theorem sibling_and_instance_started :
    let m := newManager ["pmx-telemetry.service"] ["pmx-console-broker@.service"]
    (spawnEphemeral m plainHost (spawnEnvelope "pmx-telemetry.service")).2 =
        some ["systemd-run", "--unit=pmx-telemetry@7.service",
          "--property=StandardInput=file:/run/pmx-cloud/7.env", "--property=Type=oneshot",
          "--property=User=root", "--property=Group=root", "--property=RemainAfterExit=no",
          "/usr/local/bin/pmx-telemetry"] ∧
      (spawnEphemeral m plainHost (spawnEnvelope "pmx-console-broker@x.service")).2 =
        some ["systemd-run", "--unit=pmx-console-broker@x@7.service",
          "--property=StandardInput=file:/run/pmx-cloud/7.env", "--property=Type=oneshot",
          "--property=User=root", "--property=Group=root", "--property=RemainAfterExit=no",
          "/usr/local/bin/pmx-console-broker@x"] := by
  constructor <;> decide

end PmxAgents.Core.Spawn

import PmxAgents.Core.Spawn
import PmxAgents.Lib.JsonTree

/-!
# Results on their way to the gateway

A command passes through three layers. The router finds its handler, the core wraps what the
handler returns in a result frame, and the connection wraps that frame once more, under the
job id of the envelope. Handlers report most failures in their bodies, with no error of their
own; the core puts an error into its frame only if the handler returned one, and the
connection takes an error out of what it wraps only if it is at the top.

## Implementation notes

Bodies and frames are JSON texts by what they say; texts of strings are valid UTF-8. A frame
that cannot be encoded is not sent. A frame that cannot be read back is sent as a string with
its text. The audit log is left out.
-/

namespace PmxAgents.Core.Results

open Lib Lib.JsonTree Shared

/-! ## Handlers -/

/-- The bytes a handler returns: none, a JSON text, or something else. -/
inductive RawMessage where
  | empty
  | json (v : Json)
  | invalid

/-- A success with a body, a failure that is told in the body, or an error beside the body. -/
inductive Outcome where
  | success (body : RawMessage)
  | errorBody (code message : String)
  | goError (body : RawMessage) (text : String)

def errorJSON (code message : String) : Json :=
  .object [("error", .string code), ("message", .string message)]

def okJSON : Json := .object [("ok", .bool true)]

/-- The two results of a handler. -/
def Outcome.returned : Outcome → RawMessage × Option String
  | .success body => (body, none)
  | .errorBody code message => (.json (errorJSON code message), none)
  | .goError body text => (body, some text)

/-- The handler failed. -/
def Outcome.Failed : Outcome → Prop
  | .success _ => False
  | .errorBody _ _ => True
  | .goError _ _ => True

abbrev Handler := Envelope → Outcome

abbrev Router := List (String × Handler)

def dispatch (router : Router) (env : Envelope) : Outcome :=
  match router.lookup env.command with
  | some handler => handler env
  | none =>
      .goError
        (.json (.object [("command", .string env.command), ("error", .string "UNKNOWN_COMMAND")]))
        ("UNKNOWN_COMMAND: " ++ env.command)

/-! ## The core's frame -/

structure ResultFrame where
  jobID : String
  payload : RawMessage
  error : String

/-- The payload as a member, left out when it is empty. -/
def payloadMember : RawMessage → Option (List (String × Json))
  | .empty => some []
  | .json v => if v.depth ≤ maxNestingDepth then some [("payload", v)] else none
  | .invalid => none

def errorMember (error : String) : List (String × Json) :=
  if error = "" then [] else [("error", .string error)]

def ResultFrame.members (frame : ResultFrame) (payload : List (String × Json)) :
    List (String × Json) :=
  [("type", Json.string "result"), ("jobId", .string frame.jobID)] ++ payload ++
    errorMember frame.error

def ResultFrame.marshal (frame : ResultFrame) : Option Json :=
  (payloadMember frame.payload).map fun payload => .object (frame.members payload)

def drainingJSON : Json :=
  errorJSON "DRAINING" "pmx-core is draining, no new commands accepted"

def onEnvelope (draining : Bool) (router : Router) (env : Envelope) : Option Json :=
  if draining then some drainingJSON
  else
    let (result, err) := (dispatch router env).returned
    ResultFrame.marshal ⟨env.jobID, result, err.getD ""⟩

/-! ## The connection's frame -/

/-- A payload is a value, or the text of a frame as a string. -/
inductive Payload where
  | value (v : Json)
  | text (v : Json)

/-- What the gateway gets: its type is always that of a result. -/
structure GatewayFrame where
  jobID : String
  error : Option String
  payload : Option Payload

def wrapJobResult (jobID : String) (result : Json) : GatewayFrame :=
  if result.readable then
    match result with
    | .object members =>
        match field members "error" with
        | some (.string message) =>
            if message ≠ "" then ⟨jobID, some message, none⟩
            else ⟨jobID, none, some (.value result)⟩
        | _ => ⟨jobID, none, some (.value result)⟩
    | _ => ⟨jobID, none, some (.value result)⟩
  else ⟨jobID, none, some (.text result)⟩

/-- From an envelope to the frame for the gateway, if one is sent. -/
def deliver (draining : Bool) (router : Router) (env : Envelope) : Option GatewayFrame :=
  (onEnvelope draining router env).map (wrapJobResult env.jobID)

/-! ## What the gateway is told -/

def GatewayFrame.CarriesError (frame : GatewayFrame) : Prop :=
  ∃ text, frame.error = some text ∧ text ≠ ""

/-- The payload that a body should become. -/
def RawMessage.asPayload : RawMessage → Option Payload
  | .json v => some (.value v)
  | _ => none

/-- A frame is sent; it carries an error exactly if the handler failed, and on success the body of
the handler. -/
def Delivered (outcome : Outcome) (sent : Option GatewayFrame) : Prop :=
  ∃ frame, sent = some frame ∧ (frame.CarriesError ↔ outcome.Failed) ∧
    ∀ body, outcome = .success body → frame.payload = body.asPayload

/-- The body can be sent in a frame and read from it again. -/
def RawMessage.Framed : RawMessage → Prop
  | .empty => True
  | .json v => v.depth + 1 ≤ maxNestingDepth ∧ v.numbersFit
  | .invalid => False

section Frames
variable {frame : ResultFrame} {payload : List (String × Json)}

theorem payloadMember_cases {body : RawMessage} (h : payloadMember body = some payload) :
    body = .empty ∧ payload = [] ∨ ∃ v, body = .json v ∧ payload = [("payload", v)] := by
  cases body with
  | empty => exact Or.inl ⟨rfl, (Option.some.inj h).symm⟩
  | json v =>
      rw [payloadMember] at h
      split_ifs at h
      exact Or.inr ⟨v, rfl, (Option.some.inj h).symm⟩
  | invalid => cases h

/-- The error of a frame is read back from it. -/
theorem field_error_members (h : payloadMember frame.payload = some payload) :
    field (frame.members payload) "error" =
      if frame.error = "" then none else some (.string frame.error) := by
  rcases payloadMember_cases h with ⟨-, rfl⟩ | ⟨v, -, rfl⟩ <;>
    by_cases herror : frame.error = "" <;>
    simp [field, ResultFrame.members, errorMember, herror, List.lookup_cons]

/-- A frame with an error is unwrapped by the connection exactly if it can be read. -/
theorem carriesError_wrap_iff {jobID : String} (h : payloadMember frame.payload = some payload) :
    (wrapJobResult jobID (.object (frame.members payload))).CarriesError ↔
      (Json.object (frame.members payload)).readable ∧ frame.error ≠ "" := by
  rw [wrapJobResult]
  split_ifs with hread
  · rw [field_error_members h]
    by_cases herror : frame.error = ""
    · simp [herror, GatewayFrame.CarriesError]
    · simp [herror, GatewayFrame.CarriesError, hread]
  · simp [GatewayFrame.CarriesError, hread]

/-- A frame is one level deeper than its payload. -/
theorem depth_members (frame : ResultFrame) (v : Json) :
    (Json.object (frame.members [("payload", v)])).depth = v.depth + 1 := by
  by_cases herror : frame.error = "" <;>
    simp [ResultFrame.members, errorMember, herror, Json.depth, depthMembers]

theorem readable_members_iff (h : payloadMember frame.payload = some payload) :
    (Json.object (frame.members payload)).readable ↔ frame.payload.Framed := by
  rcases payloadMember_cases h with ⟨hbody, rfl⟩ | ⟨v, hbody, rfl⟩
  · rw [hbody]
    by_cases herror : frame.error = "" <;>
      simp [Json.readable, RawMessage.Framed, ResultFrame.members, errorMember, herror, Json.depth,
        depthMembers, Json.numbersFit, numbersFitMembers, maxNestingDepth]
  · have hfit : (Json.object (frame.members [("payload", v)])).numbersFit = v.numbersFit := by
      by_cases herror : frame.error = "" <;>
        simp [ResultFrame.members, errorMember, herror, Json.numbersFit, numbersFitMembers]
    rw [hbody, Json.readable, depth_members, hfit, RawMessage.Framed, Bool.and_eq_true,
      decide_eq_true_eq]

/-- What can be framed can be encoded. -/
theorem payloadMember_of_framed {body : RawMessage} (h : body.Framed) :
    ∃ payload, payloadMember body = some payload := by
  cases body with
  | empty => exact ⟨[], rfl⟩
  | json v => exact ⟨[("payload", v)], if_pos (Nat.le_of_succ_le h.1)⟩
  | invalid => exact h.elim

/-- A frame without an error becomes a payload itself, which is not the body it has. -/
theorem payload_wrap_ne {jobID : String} (h : payloadMember frame.payload = some payload)
    (herror : frame.error = "") :
    (wrapJobResult jobID (.object (frame.members payload))).payload ≠ frame.payload.asPayload := by
  have hfield := field_error_members h
  rw [if_pos herror] at hfield
  rw [wrapJobResult]
  split_ifs
  · simp only [hfield]
    rcases payloadMember_cases h with ⟨hbody, -⟩ | ⟨v, hbody, rfl⟩
    · rw [hbody]
      exact Option.some_ne_none _
    · rw [hbody]
      intro heq
      have hdepth := congrArg Json.depth (Payload.value.inj (Option.some.inj heq))
      rw [depth_members] at hdepth
      omega
  · cases frame.payload <;> simp [RawMessage.asPayload]

end Frames

section Deliver
variable {router : Router} {env : Envelope}

/-- The frame that the core makes of an outcome. -/
def coreFrame (env : Envelope) (outcome : Outcome) : ResultFrame :=
  ⟨env.jobID, outcome.returned.1, outcome.returned.2.getD ""⟩

theorem deliver_eq_some {sent : GatewayFrame} :
    deliver false router env = some sent ↔
      ∃ payload, payloadMember (coreFrame env (dispatch router env)).payload = some payload ∧
        wrapJobResult env.jobID (.object ((coreFrame env (dispatch router env)).members payload)) =
          sent := by
  have hdeliver : deliver false router env =
      ((coreFrame env (dispatch router env)).marshal).map (wrapJobResult env.jobID) := rfl
  rw [hdeliver, ResultFrame.marshal, Option.map_map, Option.map_eq_some_iff]
  rfl

end Deliver

/-- The gateway is told what happened exactly if the handler returned an error of its own, with a
text, and a body that can be framed. -/
theorem delivered_iff (router : Router) (env : Envelope) :
    Delivered (dispatch router env) (deliver false router env) ↔
      ∃ body text, dispatch router env = .goError body text ∧ text ≠ "" ∧ body.Framed := by
  constructor
  · rintro ⟨sent, hsent, herror, hpayload⟩
    obtain ⟨payload, hmember, rfl⟩ := deliver_eq_some.mp hsent
    rw [carriesError_wrap_iff hmember, readable_members_iff hmember] at herror
    cases houtcome : dispatch router env with
    | success body =>
        have hbody := hpayload body houtcome
        rw [houtcome] at hmember hbody
        exact absurd hbody (payload_wrap_ne hmember rfl)
    | errorBody code message =>
        rw [houtcome] at herror
        exact absurd rfl (herror.mpr trivial).2
    | goError body text =>
        rw [houtcome] at herror
        obtain ⟨hframed, htext⟩ := herror.mpr trivial
        exact ⟨body, text, rfl, htext, hframed⟩
  · rintro ⟨body, text, houtcome, htext, hframed⟩
    obtain ⟨payload, hmember⟩ := payloadMember_of_framed hframed
    have hmember' : payloadMember (coreFrame env (dispatch router env)).payload = some payload := by
      rw [houtcome]
      exact hmember
    refine ⟨_, deliver_eq_some.mpr ⟨payload, hmember', rfl⟩, ?_, ?_⟩
    · rw [carriesError_wrap_iff hmember', readable_members_iff hmember', houtcome]
      exact iff_of_true ⟨hframed, htext⟩ trivial
    · intro other hother
      cases houtcome.symm.trans hother

/-! ## The spawn command -/

/-- What the handler of `core.spawn.ephemeral` returns. -/
def spawnHandler (m : Spawn.Manager) (host : Spawn.Host) : Handler := fun env =>
  match (Spawn.spawnEphemeral m host env).1 with
  | .ok () => .success (.json okJSON)
  | .error (code, message) => .errorBody code message

/-- A spawn that succeeds arrives as a result inside a result, and so does one that is refused:
neither carries an error. -/
theorem nested_result_frames :
    let router : Router := [("core.spawn.ephemeral",
      spawnHandler (Spawn.newManager [] ["pmx-updater@.service"]) Spawn.plainHost)]
    let nested (body : Json) : GatewayFrame := ⟨"7", none, some (.value (.object
      [("type", .string "result"), ("jobId", .string "7"), ("payload", body)]))⟩
    deliver false router (Spawn.spawnEnvelope "pmx-updater@.service") = some (nested okJSON) ∧
      deliver false router (Spawn.spawnEnvelope "pmx-evil@.service") =
        some (nested (errorJSON "NOT_ALLOWED"
          "template \"pmx-evil@.service\" is not in the allowlist")) :=
  ⟨rfl, rfl⟩

end PmxAgents.Core.Results

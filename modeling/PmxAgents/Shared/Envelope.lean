import PmxAgents.Lib.Hex
import PmxAgents.Shared.ReplayCache

/-!
# The signed job envelope of the Go agents

The envelope, its canonical bytes, the key set and the verification in the
order of its rejection paths. The replay check is the last one and the only one
that touches shared state.

## Implementation notes

`Libs` holds what the agents call and this repository does not contain: the
deterministic CBOR encoding mode and the signature primitive.

Instants are nanoseconds since the Unix epoch, durations nanoseconds. `CanonicalBytes` converts both
timestamps to UTC, so the location of a timestamp is not kept. `Sub` and `Since`
saturate at the range of a duration; that never changes a comparison with a
duration, and plain subtraction is used.
-/

namespace PmxAgents.Shared

open Lib Lib.Cbor

def second : Int := 10 ^ 9

def hour : Int := 3600 * second

/-- The zero value of a time: midnight of the first of January of the year 1. -/
def zeroTime : Int := -62135596800 * second

/-- The Go values an envelope carries. A struct lists its fields under their
tags, a map its entries in no particular order. -/
inductive Any where
  | nil
  | bool (b : Bool)
  | int64 (i : Int64)
  | uint64 (n : UInt64)
  | float64 (bits : UInt64)
  | string (s : String)
  | bytes (b : Bytes)
  | time (t : Int)
  | slice (xs : List Any)
  | map (kvs : List (String × Any))
  | struct (fields : List (String × Any))

/-- The encoding mode `cborEM` and the signature check of the platform. -/
structure Libs where
  marshal : Any → Except String Bytes
  ed25519Verify : Bytes → Bytes → Bytes → Bool

def supportedVersion : String := "pmx-agent-v1"

def maxLifetime : Int := hour

def ntpSkewTolerance : Int := 30 * second

/-- The envelope; a nil params map is `none`. -/
structure Envelope where
  version : String
  jobID : String
  issuedAt : Int
  expiresAt : Int
  issuer : String
  audience : String
  host : String
  command : String
  params : Option (List (String × Any))
  signature : String

namespace Envelope

/-- The payload that is signed: every field but the signature. -/
def sigPayload (e : Envelope) : Any :=
  .struct
    [("version", .string e.version),
     ("jobId", .string e.jobID),
     ("issuedAt", .time e.issuedAt),
     ("expiresAt", .time e.expiresAt),
     ("issuer", .string e.issuer),
     ("audience", .string e.audience),
     ("host", .string e.host),
     ("command", .string e.command),
     ("params", (e.params.map Any.map).getD .nil)]

def canonicalBytes (L : Libs) (e : Envelope) : Except String Bytes := L.marshal e.sigPayload

end Envelope

/-! ## Keys -/

/-- A public key; `notAfter` is the zero time when the key does not expire. -/
structure KeyEntry where
  pub : Bytes
  notAfter : Int
  deriving DecidableEq, Repr

def KeyEntry.isActive (k : KeyEntry) (now : Int) : Bool :=
  if k.notAfter = zeroTime then true else decide (now < k.notAfter)

abbrev KeySet := List KeyEntry

/-- Some key that is active when its turn comes accepts the signature. -/
def KeySet.verify (L : Libs) (keys : KeySet) (now : Nat → Int) (message signature : Bytes) :
    Bool :=
  keys.zipIdx.any fun (entry, i) =>
    entry.isActive (now i) && L.ed25519Verify entry.pub message signature

/-! ## Verification -/

/-- The rejections, with what each message reports. -/
inductive VerifyError where
  | versionUnsupported (got : String)
  | expired (expiresAt : Int)
  | tooLongLived (lifetime : Int)
  | audienceMismatch (expected got : String)
  | hostMismatch (expected got : String)
  | canonicalEncoding (err : String)
  | signatureNotHex
  | badSignature
  | replay (jobID : String)

/-- The sentinel an error wraps. -/
def VerifyError.sentinel : VerifyError → Option String
  | .versionUnsupported _ => some "envelope: unsupported version"
  | .expired _ => some "envelope: expired"
  | .tooLongLived _ => some "envelope: lifetime exceeds maximum (1h)"
  | .audienceMismatch _ _ => some "envelope: audience mismatch"
  | .hostMismatch _ _ => some "envelope: host fingerprint mismatch"
  | .canonicalEncoding _ => none
  | .signatureNotHex => some "envelope: bad signature"
  | .badSignature => some "envelope: bad signature"
  | .replay _ => some "envelope: replayed job ID"

/-- The arguments of one verification apart from the cache. -/
structure Call where
  env : Envelope
  keyset : KeySet
  agentClass : String
  hostFingerprint : String

namespace Call

/-- The first six checks. `start` is the reading for the expiry, `keys i` the one
taken for the key at position `i`. -/
def check (L : Libs) (c : Call) (start : Int) (keys : Nat → Int) : Except VerifyError Unit :=
  if c.env.version ≠ supportedVersion then .error (.versionUnsupported c.env.version)
  else if c.env.expiresAt < start - ntpSkewTolerance then .error (.expired c.env.expiresAt)
  else if maxLifetime < c.env.expiresAt - c.env.issuedAt then
    .error (.tooLongLived (c.env.expiresAt - c.env.issuedAt))
  else if c.env.audience ≠ c.agentClass then
    .error (.audienceMismatch c.agentClass c.env.audience)
  else if c.env.host ≠ c.hostFingerprint then
    .error (.hostMismatch c.hostFingerprint c.env.host)
  else match c.env.canonicalBytes L with
  | .error err => .error (.canonicalEncoding err)
  | .ok canonical =>
      match Hex.decode c.env.signature with
      | .error _ => .error .signatureNotHex
      | .ok sigBytes =>
          if c.keyset.verify L keys canonical sigBytes then .ok () else .error .badSignature

/-- The clock readings one call takes, in the order it takes them. -/
structure Clock where
  start : Int
  keys : Nat → Int
  seen : Int
  remember : Int
  start_le_keys : ∀ i, start ≤ keys i
  keys_le_seen : ∀ i, keys i ≤ seen
  seen_le_remember : seen ≤ remember

/-- A call that reads the same time throughout. -/
def Clock.at (t : Int) : Clock :=
  ⟨t, fun _ => t, t, t, fun _ => le_refl t, fun _ => le_refl t, le_refl t⟩

/-- The whole verification: the checks, then the replay check, which records the
job id when it has not been seen. -/
def verify (L : Libs) (c : Call) (clock : Clock) (cache : ReplayCache) :
    Except VerifyError Unit × ReplayCache :=
  match c.check L clock.start clock.keys with
  | .error err => (.error err, cache)
  | .ok () =>
      if cache.seen c.env.jobID clock.seen then (.error (.replay c.env.jobID), cache)
      else (.ok (), cache.remember c.env.jobID clock.remember)

/-- The call returns nil. -/
def Accepted (L : Libs) (c : Call) (clock : Clock) (cache : ReplayCache) : Prop :=
  (c.verify L clock cache).1 = .ok ()

theorem Clock.start_le_seen (clock : Clock) : clock.start ≤ clock.seen :=
  (clock.start_le_keys 0).trans (clock.keys_le_seen 0)

/-- What the checks leave of the expiry: an envelope passes until the tolerance
after its expiry. -/
theorem start_le_of_check {L : Libs} {c : Call} {start : Int} {keys : Nat → Int}
    (h : c.check L start keys = .ok ()) : start ≤ c.env.expiresAt + ntpSkewTolerance := by
  unfold check at h
  split_ifs at h with hver hexp
  all_goals omega

section Verify

variable {L : Libs} {c : Call} {clock : Clock} {cache : ReplayCache}

theorem verify_of_check_error {err : VerifyError}
    (h : c.check L clock.start clock.keys = .error err) :
    c.verify L clock cache = (.error err, cache) := by
  rw [verify, h]

theorem verify_of_seen (h : c.check L clock.start clock.keys = .ok ())
    (hseen : cache.seen c.env.jobID clock.seen = true) :
    c.verify L clock cache = (.error (.replay c.env.jobID), cache) := by
  rw [verify, h]
  exact if_pos hseen

theorem verify_of_unseen (h : c.check L clock.start clock.keys = .ok ())
    (hseen : cache.seen c.env.jobID clock.seen = false) :
    c.verify L clock cache = (.ok (), cache.remember c.env.jobID clock.remember) := by
  rw [verify, h]
  exact if_neg (by simp [hseen])

end Verify

/-- A call returns nil exactly when the checks pass and its job id is unseen. -/
theorem accepted_iff {L : Libs} {c : Call} {clock : Clock} {cache : ReplayCache} :
    c.Accepted L clock cache ↔
      c.check L clock.start clock.keys = .ok () ∧
        cache.seen c.env.jobID clock.seen = false := by
  unfold Accepted
  cases hcheck : c.check L clock.start clock.keys with
  | error err => simp [verify_of_check_error hcheck]
  | ok u =>
      cases hseen : cache.seen c.env.jobID clock.seen with
      | true => simp [verify_of_seen hcheck hseen]
      | false => simp [verify_of_unseen hcheck hseen]

/-- An accepted call records its job id; any other call leaves the cache alone. -/
theorem verify_cache (L : Libs) (c : Call) (clock : Clock) (cache : ReplayCache) :
    (c.Accepted L clock cache ∧
        (c.verify L clock cache).2 = cache.remember c.env.jobID clock.remember) ∨
      (¬ c.Accepted L clock cache ∧ (c.verify L clock cache).2 = cache) := by
  unfold Accepted
  cases hcheck : c.check L clock.start clock.keys with
  | error err => exact Or.inr (by simp [verify_of_check_error hcheck])
  | ok u =>
      cases hseen : cache.seen c.env.jobID clock.seen with
      | true => exact Or.inr (by simp [verify_of_seen hcheck hseen])
      | false => exact Or.inl (by simp [verify_of_unseen hcheck hseen])

end Call

end PmxAgents.Shared

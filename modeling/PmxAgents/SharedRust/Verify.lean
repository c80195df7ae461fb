import PmxAgents.SharedRust.KeySet

/-!
# Verification of the Rust envelope

The checks in the order of the Go implementation, with the position of the key
that verified the signature as the answer, and the replay cache they end with.

## Implementation notes

The replay cache keeps its entries in an index map. Removing a known job id swaps
the last entry into its place, so the order of the other entries can change.
-/

namespace PmxAgents.SharedRust

open Lib Lib.Cbor

/-- The cache: job ids with the instants they were observed at. -/
structure ReplayCache where
  capacity : Nat
  ttl : Int
  map : List (String × Int)

namespace ReplayCache

def new (capacity : Nat) (ttl : Int) : ReplayCache := ⟨capacity, ttl, []⟩

def seen (c : ReplayCache) (jobId : String) (now : Int) : Bool :=
  match c.map.lookup jobId with
  | some observedAt => decide (now - observedAt < c.ttl)
  | none => false

/-- Remove a key by moving the last entry into its place. -/
def swapRemove (es : List (String × Int)) (jobId : String) : List (String × Int) :=
  match es.findIdx? (fun e => e.1 == jobId), es.getLast? with
  | some i, some last => (es.set i last).dropLast
  | _, _ => es

def remember (c : ReplayCache) (jobId : String) (now : Int) : ReplayCache :=
  let kept :=
    if (c.map.lookup jobId).isSome then swapRemove c.map jobId
    else if c.capacity ≤ c.map.length then c.map.tail
    else c.map
  { c with map := kept ++ [(jobId, now)] }

/-- The background purge at one clock reading. -/
def purge (c : ReplayCache) (now : Int) : ReplayCache :=
  { c with map := c.map.filter fun e => decide (now - e.2 < c.ttl) }

end ReplayCache

def supportedVersion : String := "pmx-agent-v1"

def maxLifetimeSecs : Int := 3600

def ntpSkewSecs : Int := 30

/-- Whole seconds between two timestamps, rounded towards zero. A leap second that
lies between the two counts. -/
def DateTime.numSecondsSince (a b : DateTime) : Int :=
  let leap : Int :=
    if b.secs % 86400 < a.secs % 86400 ∧ 10 ^ 9 ≤ b.nanos then 1
    else if a.secs % 86400 < b.secs % 86400 ∧ 10 ^ 9 ≤ a.nanos then -1
    else 0
  ((a.secs - b.secs + leap) * 10 ^ 9 + (a.nanos - b.nanos)).tdiv (10 ^ 9)

/-- Before an instant shifted back by whole seconds. -/
def DateTime.ltShifted (a now : DateTime) (secs : Int) : Bool :=
  decide (a.secs < now.secs - secs ∨ a.secs = now.secs - secs ∧ a.nanos < now.nanos)

/-- The clock readings of one verification: the wall clock, and the monotonic
clock when the replay cache is read and written. -/
structure VerifyClock where
  now : DateTime
  seen : Int
  remember : Int

namespace Envelope

/-- The checks before the replay check: the index into `keys` of the first key
under which the signature verifies. -/
def identify (L : Libs) {C : Crypto} (e : Envelope) (keys : List C.Key)
    (agentClass hostFingerprint : String) (now : DateTime) : Except EnvelopeError Nat :=
  if e.version ≠ supportedVersion then .error (.versionUnsupported e.version)
  else if e.expiresAt.ltShifted now ntpSkewSecs then .error (.expired e.expiresAt)
  else if maxLifetimeSecs < e.expiresAt.numSecondsSince e.issuedAt then
    .error (.tooLongLived (e.expiresAt.numSecondsSince e.issuedAt))
  else if e.audience ≠ agentClass then .error (.audienceMismatch agentClass e.audience)
  else if e.host ≠ hostFingerprint then .error (.hostMismatch hostFingerprint e.host)
  else match e.canonicalBytes L with
  | .error err => .error err
  | .ok canonical =>
      match Hex.decode e.signature with
      | .error err => .error (.hex err)
      | .ok sigBytes =>
          match C.sigFromSlice sigBytes with
          | .error _ => .error .badSignature
          | .ok sig =>
              match keys.findIdx? fun k => C.verify k canonical sig with
              | none => .error .badSignature
              | some keyIndex => .ok keyIndex

/-- Verify the envelope and answer with the index of the key that verified it. -/
def verifyIdentifying (L : Libs) {C : Crypto} (e : Envelope) (keys : List C.Key)
    (agentClass hostFingerprint : String) (clock : VerifyClock) (replay : ReplayCache) :
    Except EnvelopeError Nat × ReplayCache :=
  match e.identify L keys agentClass hostFingerprint clock.now with
  | .error err => (.error err, replay)
  | .ok keyIndex =>
      if replay.seen e.jobId clock.seen then (.error (.replay e.jobId), replay)
      else (.ok keyIndex, replay.remember e.jobId clock.remember)

/-- Verify the envelope. -/
def verify (L : Libs) {C : Crypto} (e : Envelope) (keys : List C.Key)
    (agentClass hostFingerprint : String) (clock : VerifyClock) (replay : ReplayCache) :
    Except EnvelopeError Unit × ReplayCache :=
  match e.verifyIdentifying L keys agentClass hostFingerprint clock replay with
  | (.error err, replay) => (.error err, replay)
  | (.ok _, replay) => (.ok (), replay)

/-- The signature of the envelope verifies under the key. -/
def SignedBy (L : Libs) {C : Crypto} (key : C.Key) (e : Envelope) : Prop :=
  ∃ canonical sigBytes sig, e.canonicalBytes L = .ok canonical ∧
    Hex.decode e.signature = .ok sigBytes ∧ C.sigFromSlice sigBytes = .ok sig ∧
    C.verify key canonical sig = true

/-- The index is that of a key under which the signature verifies. -/
theorem signedBy_of_identify {L : Libs} {C : Crypto} {e : Envelope} {keys : List C.Key}
    {agentClass hostFingerprint : String} {now : DateTime} {i : Nat}
    (h : e.identify L keys agentClass hostFingerprint now = .ok i) :
    ∃ key, keys[i]? = some key ∧ e.SignedBy L key := by
  unfold identify at h
  split_ifs at h
  split at h
  · cases h
  · rename_i canonical hcanonical
    split at h
    · cases h
    · rename_i sigBytes hhex
      split at h
      · cases h
      · rename_i sig hsig
        split at h
        · cases h
        · rename_i keyIndex hfind
          obtain rfl := Except.ok.inj h
          obtain ⟨hlt, hverify, _⟩ := List.findIdx?_eq_some_iff_getElem.mp hfind
          exact ⟨_, List.getElem?_eq_getElem hlt, canonical, sigBytes, sig, hcanonical, hhex,
            hsig, hverify⟩

theorem identify_of_verifyIdentifying {L : Libs} {C : Crypto} {e : Envelope} {keys : List C.Key}
    {agentClass hostFingerprint : String} {clock : VerifyClock} {replay replay' : ReplayCache}
    {i : Nat}
    (h : e.verifyIdentifying L keys agentClass hostFingerprint clock replay = (.ok i, replay')) :
    e.identify L keys agentClass hostFingerprint clock.now = .ok i := by
  unfold verifyIdentifying at h
  split at h
  · cases h
  · rename_i keyIndex hidentify
    split at h
    · cases h
    · obtain rfl := Except.ok.inj (Prod.mk.inj h).1
      exact hidentify

/-- An envelope for this host and moment whose signature verifies under the first
key is identified with it. -/
theorem identify_zero {L : Libs} {C : Crypto} {e : Envelope} {key : C.Key} {keys : List C.Key}
    {agentClass hostFingerprint : String} {now : DateTime} (hversion : e.version = supportedVersion)
    (hexpires : e.expiresAt = now) (hissued : e.issuedAt = now)
    (haudience : e.audience = agentClass) (hhost : e.host = hostFingerprint)
    (hsigned : e.SignedBy L key) :
    e.identify L (key :: keys) agentClass hostFingerprint now = .ok 0 := by
  obtain ⟨canonical, sigBytes, sig, hcanonical, hhex, hsig, hverify⟩ := hsigned
  have hexpired : now.ltShifted now ntpSkewSecs = false := by
    apply decide_eq_false
    simp only [ntpSkewSecs]
    omega
  have hlifetime : ¬ maxLifetimeSecs < now.numSecondsSince now := by
    simp [DateTime.numSecondsSince, maxLifetimeSecs]
  simp only [identify, hversion, hexpires, hissued, haudience, hhost, hexpired, hlifetime,
    hcanonical, hhex, hsig, ne_eq, not_true_eq_false, if_false, Bool.false_eq_true,
    List.findIdx?_cons, hverify, if_true]

end Envelope

end PmxAgents.SharedRust

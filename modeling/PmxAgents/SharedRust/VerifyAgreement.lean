import PmxAgents.Lib.Checks
import PmxAgents.Shared.ReplayWindow
import PmxAgents.SharedRust.Verify

/-!
# The two verifications side by side

One envelope is verified by a Go agent and by a Rust agent, with the same canonical
bytes, active keys, agent class, host, clock reading and replay state. The checks are
the same but for the lifetime: one compares durations in nanoseconds, the other whole
seconds, rounded down. Between one hour and one hour and a second only the second one
accepts.

## Implementation notes

The signature primitives are of two libraries; for one key they are taken to accept
the same signatures. No timestamp is in a leap second, which the Go agents cannot
represent.
-/

namespace PmxAgents.SharedRust

open Lib Lib.Cbor Lib.Checks

/-- Nanoseconds since the epoch. -/
def DateTime.instant (d : DateTime) : Int := d.secs * Shared.second + d.nanos

/-- The two libraries accept the same signatures for a key. -/
def SameKey (G : Shared.Libs) (C : Crypto) (pub : Bytes) (key : C.Key) : Prop :=
  ∀ message signature, G.ed25519Verify pub message signature =
    match C.sigFromSlice signature with
    | .error _ => false
    | .ok sig => C.verify key message sig

/-- One envelope, at one clock reading, as a call of each agent. -/
structure SameCall (G : Shared.Libs) (L : Libs) {C : Crypto} (c : Shared.Call) (e : Envelope)
    (keys : List C.Key) (now : DateTime) (cache : Shared.ReplayCache) (replay : ReplayCache) :
    Prop where
  version : c.env.version = e.version
  jobId : c.env.jobID = e.jobId
  issuedAt : c.env.issuedAt = e.issuedAt.instant
  expiresAt : c.env.expiresAt = e.expiresAt.instant
  audience : c.env.audience = e.audience
  host : c.env.host = e.host
  signature : c.env.signature = e.signature
  noLeapSecond : e.issuedAt.nanos < 10 ^ 9 ∧ e.expiresAt.nanos < 10 ^ 9 ∧ now.nanos < 10 ^ 9
  canonical : (c.env.canonicalBytes G).toOption = (e.canonicalBytes L).toOption
  keys : List.Forall₂ (SameKey G C)
    ((c.keyset.filter fun k => k.isActive now.instant).map Shared.KeyEntry.pub) keys
  replay : ∀ jobId t, cache.seen jobId t = replay.seen jobId t

/-- The checks apart from the lifetime. -/
structure OtherChecks (G : Shared.Libs) (c : Shared.Call) (now : Int)
    (cache : Shared.ReplayCache) : Prop where
  version : c.env.version = Shared.supportedVersion
  expiry : now - Shared.ntpSkewTolerance ≤ c.env.expiresAt
  audience : c.env.audience = c.agentClass
  host : c.env.host = c.hostFingerprint
  signature : ∃ canonical sigBytes, c.env.canonicalBytes G = .ok canonical ∧
    Hex.decode c.env.signature = .ok sigBytes ∧
    c.keyset.verify G (fun _ => now) canonical sigBytes
  unseen : cache.seen c.env.jobID now = false

/-- The envelope is accepted by the Rust agent. -/
def Envelope.Accepted (L : Libs) {C : Crypto} (e : Envelope) (keys : List C.Key)
    (agentClass hostFingerprint : String) (now : DateTime) (replay : ReplayCache) : Prop :=
  (e.verify L keys agentClass hostFingerprint ⟨now, now.instant, now.instant⟩ replay).1 = .ok ()

/-! ## The Go agent -/

theorem check_eq_ok {G : Shared.Libs} {c : Shared.Call} {start : Int} {keys : ℕ → Int} :
    c.check G start keys = .ok () ↔
      c.env.version = Shared.supportedVersion ∧
        ¬ c.env.expiresAt < start - Shared.ntpSkewTolerance ∧
        ¬ Shared.maxLifetime < c.env.expiresAt - c.env.issuedAt ∧
        c.env.audience = c.agentClass ∧ c.env.host = c.hostFingerprint ∧
        ∃ canonical sigBytes, c.env.canonicalBytes G = .ok canonical ∧
          Hex.decode c.env.signature = .ok sigBytes ∧
          c.keyset.verify G keys canonical sigBytes := by
  simp only [Shared.Call.check, ite_error_eq_ok, ne_eq, not_not]
  refine and_congr_right fun _ => and_congr_right fun _ => and_congr_right fun _ =>
    and_congr_right fun _ => and_congr_right fun _ => ?_
  cases c.env.canonicalBytes G with
  | error err => simp
  | ok canonical =>
      cases Hex.decode c.env.signature with
      | error err => simp
      | ok sigBytes => simp

theorem go_accepted_iff {G : Shared.Libs} {c : Shared.Call} {now : Int}
    {cache : Shared.ReplayCache} :
    c.Accepted G (.at now) cache ↔
      OtherChecks G c now cache ∧ c.env.expiresAt - c.env.issuedAt ≤ Shared.hour := by
  rw [Shared.Call.accepted_iff, check_eq_ok]
  constructor
  · rintro ⟨⟨hversion, hexpiry, hlifetime, haudience, hhost, hsignature⟩, hunseen⟩
    exact ⟨⟨hversion, not_lt.mp hexpiry, haudience, hhost, hsignature, hunseen⟩,
      not_lt.mp hlifetime⟩
  · rintro ⟨⟨hversion, hexpiry, haudience, hhost, hsignature, hunseen⟩, hlifetime⟩
    exact ⟨⟨hversion, not_lt.mpr hexpiry, not_lt.mpr hlifetime, haudience, hhost, hsignature⟩,
      hunseen⟩

/-! ## The Rust agent -/

theorem accepted_iff {L : Libs} {C : Crypto} {e : Envelope} {keys : List C.Key}
    {agentClass hostFingerprint : String} {now : DateTime} {replay : ReplayCache} :
    e.Accepted L keys agentClass hostFingerprint now replay ↔
      (∃ i, e.identify L keys agentClass hostFingerprint now = .ok i) ∧
        replay.seen e.jobId now.instant = false := by
  rw [Envelope.Accepted, Envelope.verify, Envelope.verifyIdentifying]
  cases e.identify L keys agentClass hostFingerprint now with
  | error err => simp
  | ok i => cases replay.seen e.jobId now.instant <;> simp

theorem identify_iff {L : Libs} {C : Crypto} {e : Envelope} {keys : List C.Key}
    {agentClass hostFingerprint : String} {now : DateTime} :
    (∃ i, e.identify L keys agentClass hostFingerprint now = .ok i) ↔
      e.version = supportedVersion ∧ e.expiresAt.ltShifted now ntpSkewSecs = false ∧
        e.expiresAt.numSecondsSince e.issuedAt ≤ maxLifetimeSecs ∧ e.audience = agentClass ∧
        e.host = hostFingerprint ∧ ∃ key ∈ keys, e.SignedBy L key := by
  constructor
  · rintro ⟨i, h⟩
    obtain ⟨key, hkey, hsigned⟩ := Envelope.signedBy_of_identify h
    simp only [Envelope.identify, ite_error_eq_ok, ne_eq, not_not] at h
    obtain ⟨hversion, hexpiry, hlifetime, haudience, hhost, -⟩ := h
    exact ⟨hversion, Bool.eq_false_iff.mpr hexpiry, not_lt.mp hlifetime, haudience, hhost, key,
      List.mem_of_getElem? hkey, hsigned⟩
  · rintro ⟨hversion, hexpiry, hlifetime, haudience, hhost, key, hkey, canonical, sigBytes, sig,
      hcanonical, hhex, hsig, hverify⟩
    have hfind : (keys.findIdx? fun k => C.verify k canonical sig).isSome := by
      rw [List.findIdx?_isSome]
      exact List.any_eq_true.mpr ⟨key, hkey, hverify⟩
    obtain ⟨i, hi⟩ := Option.isSome_iff_exists.mp hfind
    refine ⟨i, ?_⟩
    simp only [Envelope.identify, ite_error_eq_ok, ne_eq, not_not, hcanonical, hhex, hsig, hi]
    exact ⟨hversion, Bool.eq_false_iff.mp hexpiry, not_lt.mpr hlifetime, haudience, hhost, trivial⟩

/-! ## The same checks -/

section Same
variable {G : Shared.Libs} {L : Libs} {C : Crypto} {c : Shared.Call} {e : Envelope}
variable {keys : List C.Key} {now : DateTime} {cache : Shared.ReplayCache} {replay : ReplayCache}

/-- Whole seconds up to an hour are less than an hour and a second. -/
theorem numSecondsSince_le_iff {a b : DateTime} (ha : a.nanos < 10 ^ 9) (hb : b.nanos < 10 ^ 9) :
    a.numSecondsSince b ≤ maxLifetimeSecs ↔
      a.instant - b.instant < Shared.hour + Shared.second := by
  have hb' : ¬ 10 ^ 9 ≤ b.nanos := not_le.mpr hb
  have ha' : ¬ 10 ^ 9 ≤ a.nanos := not_le.mpr ha
  have hfloor : ∀ x : Int, x.tdiv (10 ^ 9) ≤ 3600 ↔ x < 3601 * 10 ^ 9 := by
    intro x
    by_cases hx : 0 ≤ x
    · rw [Int.tdiv_eq_ediv_of_nonneg hx]
      omega
    · have hneg : 0 ≤ (-x).tdiv (10 ^ 9) := Int.tdiv_nonneg (by omega) (by decide)
      rw [Int.neg_tdiv] at hneg
      omega
  simp only [DateTime.numSecondsSince, ha', hb', and_false, if_false, DateTime.instant,
    Shared.hour, Shared.second, maxLifetimeSecs, hfloor]
  omega

theorem ltShifted_eq_false_iff {a b : DateTime} (ha : a.nanos < 10 ^ 9) (hb : b.nanos < 10 ^ 9) :
    a.ltShifted b ntpSkewSecs = false ↔ b.instant - Shared.ntpSkewTolerance ≤ a.instant := by
  rw [DateTime.ltShifted, decide_eq_false_iff_not]
  simp only [DateTime.instant, Shared.ntpSkewTolerance, Shared.second, ntpSkewSecs]
  omega

/-- Lists that are related place by place have members of related properties. -/
theorem exists_mem_congr {α β : Type} {R : α → β → Prop} {P : α → Prop} {Q : β → Prop}
    (hR : ∀ a b, R a b → (P a ↔ Q b)) {as : List α} {bs : List β} (h : List.Forall₂ R as bs) :
    (∃ a ∈ as, P a) ↔ ∃ b ∈ bs, Q b := by
  induction h with
  | nil => simp
  | cons hab _ ih => simp only [List.exists_mem_cons_iff, hR _ _ hab, ih]

theorem verify_iff_exists_active {t : Int} {message signature : Bytes} :
    c.keyset.verify G (fun _ => t) message signature = true ↔
      ∃ pub ∈ (c.keyset.filter fun k => k.isActive t).map Shared.KeyEntry.pub,
        G.ed25519Verify pub message signature = true := by
  rw [Shared.KeySet.verify, List.any_eq_true]
  simp only [List.mem_map, List.mem_filter, Prod.exists, Bool.and_eq_true,
    List.mk_mem_zipIdx_iff_getElem?]
  constructor
  · rintro ⟨k, i, hk, hactive, hverify⟩
    exact ⟨k.pub, ⟨k, ⟨List.mem_of_getElem? hk, hactive⟩, rfl⟩, hverify⟩
  · rintro ⟨-, ⟨k, ⟨hk, hactive⟩, rfl⟩, hverify⟩
    obtain ⟨i, hi⟩ := List.mem_iff_getElem?.mp hk
    exact ⟨k, i, hi, hactive, hverify⟩

/-- A key of the Rust agent accepts the signature that the same key of the Go agent accepts. -/
theorem sameKey_iff {pub : Bytes} {key : C.Key} (hkey : SameKey G C pub key)
    (message signature : Bytes) :
    G.ed25519Verify pub message signature = true ↔
      ∃ sig, C.sigFromSlice signature = .ok sig ∧ C.verify key message sig = true := by
  rw [hkey message signature]
  cases C.sigFromSlice signature <;> simp

theorem SameCall.canonical_iff (h : SameCall G L c e keys now cache replay) (canonical : Bytes) :
    c.env.canonicalBytes G = .ok canonical ↔ e.canonicalBytes L = .ok canonical := by
  have hopt := h.canonical
  cases hg : c.env.canonicalBytes G <;> cases hr : e.canonicalBytes L <;>
    simp_all [Except.toOption]

/-- The signature is one that an active key accepts, for both agents or none. -/
theorem SameCall.signature_iff (h : SameCall G L c e keys now cache replay) :
    (∃ canonical sigBytes, c.env.canonicalBytes G = .ok canonical ∧
      Hex.decode c.env.signature = .ok sigBytes ∧
      c.keyset.verify G (fun _ => now.instant) canonical sigBytes) ↔
    ∃ key ∈ keys, e.SignedBy L key := by
  have hkeys : ∀ canonical sigBytes, c.keyset.verify G (fun _ => now.instant) canonical sigBytes ↔
      ∃ key ∈ keys, ∃ sig, C.sigFromSlice sigBytes = .ok sig ∧
        C.verify key canonical sig = true := by
    intro canonical sigBytes
    refine verify_iff_exists_active.trans (exists_mem_congr (R := SameKey G C) ?_ h.keys)
    exact fun pub key hkey => sameKey_iff hkey canonical sigBytes
  simp only [hkeys, h.canonical_iff, h.signature, Envelope.SignedBy]
  constructor
  · rintro ⟨canonical, sigBytes, hcanonical, hhex, key, hkey, sig, hsig, hverify⟩
    exact ⟨key, hkey, canonical, sigBytes, sig, hcanonical, hhex, hsig, hverify⟩
  · rintro ⟨key, hkey, canonical, sigBytes, sig, hcanonical, hhex, hsig, hverify⟩
    exact ⟨canonical, sigBytes, hcanonical, hhex, key, hkey, sig, hsig, hverify⟩

/-- The Rust agent accepts with the other checks, and a lifetime of less than an hour and a
second. -/
theorem SameCall.accepted_iff (h : SameCall G L c e keys now cache replay) :
    e.Accepted L keys c.agentClass c.hostFingerprint now replay ↔
      OtherChecks G c now.instant cache ∧
        c.env.expiresAt - c.env.issuedAt < Shared.hour + Shared.second := by
  obtain ⟨hissued, hexpires, hnow⟩ := h.noLeapSecond
  rw [SharedRust.accepted_iff, identify_iff, ltShifted_eq_false_iff hexpires hnow,
    numSecondsSince_le_iff hexpires hissued, ← h.signature_iff, ← h.version, ← h.audience,
    ← h.host, ← h.expiresAt, ← h.issuedAt, ← h.jobId, ← h.replay]
  constructor
  · rintro ⟨⟨hversion, hexpiry, hlifetime, haudience, hhost, hsignature⟩, hunseen⟩
    exact ⟨⟨hversion, hexpiry, haudience, hhost, hsignature, hunseen⟩, hlifetime⟩
  · rintro ⟨⟨hversion, hexpiry, haudience, hhost, hsignature, hunseen⟩, hlifetime⟩
    exact ⟨⟨hversion, hexpiry, hlifetime, haudience, hhost, hsignature⟩, hunseen⟩

end Same

/-- The two agents accept the same envelopes, but for those that pass every other check and live
more than an hour and less than an hour and a second. -/
theorem accepted_alike_iff {G : Shared.Libs} {L : Libs} {C : Crypto} {c : Shared.Call}
    {e : Envelope} {keys : List C.Key} {now : DateTime} {cache : Shared.ReplayCache}
    {replay : ReplayCache} (h : SameCall G L c e keys now cache replay) :
    (c.Accepted G (.at now.instant) cache ↔
        e.Accepted L keys c.agentClass c.hostFingerprint now replay) ↔
      ¬ (Shared.hour < c.env.expiresAt - c.env.issuedAt ∧
        c.env.expiresAt - c.env.issuedAt < Shared.hour + Shared.second ∧
        OtherChecks G c now.instant cache) := by
  rw [go_accepted_iff, h.accepted_iff]
  have hsecond : (0 : Int) < Shared.second := by decide
  by_cases hother : OtherChecks G c now.instant cache
  · simp only [hother, true_and, and_true]
    omega
  · simp [hother]

/-! ## An envelope of the first seconds of the epoch -/

/-- A library whose signature check takes the public key itself as a signature. -/
def echoCrypto : Crypto :=
  ⟨Bytes, Bytes, .ok, .ok, fun key _ sig => key == sig, fun _ => .error "no timestamp"⟩

/-- A writer of no bytes, as the canonical bytes of the echoing Go library. -/
def echoWriter : Libs := ⟨rfc3339AutoSi, fun _ => .ok []⟩

/-- The envelope of the echoing call. -/
def echoEnvelope (expiresAt : DateTime) : Envelope where
  version := "pmx-agent-v1"
  jobId := "job"
  issuedAt := epoch
  expiresAt := expiresAt
  issuer := "backend"
  audience := "pmx-core"
  host := "host"
  command := "vm.list"
  params := []
  signature := "2a"
  params_wf := by simp [Json.WF, WFPairs, KeysSorted]
  params_fit := by simp [jsonValToCbor, jsonPairsToCbor, Value.Fits, FitsPairs]
  texts_fit := by decide

theorem sameCall_echo {expiresAt : DateTime} (h : expiresAt.nanos < 10 ^ 9) :
    SameCall Shared.echoLibs echoWriter (C := echoCrypto)
      (Shared.echoCall "job" 0 expiresAt.instant) (echoEnvelope expiresAt) [[42]] epoch
      (.new 2 Shared.hour) (.new 2 Shared.hour) where
  version := rfl
  jobId := rfl
  issuedAt := rfl
  expiresAt := rfl
  audience := rfl
  host := rfl
  signature := rfl
  noLeapSecond := ⟨(by decide : epoch.nanos < 10 ^ 9), h, by decide⟩
  canonical := rfl
  keys := .cons (fun _ _ => rfl) .nil
  replay := fun _ _ => rfl

theorem otherChecks_echo {expiresAt : Int} (h : 0 ≤ expiresAt) :
    OtherChecks Shared.echoLibs (Shared.echoCall "job" 0 expiresAt) epoch.instant
      (.new 2 Shared.hour) where
  version := rfl
  expiry := le_trans (by decide) h
  audience := rfl
  host := rfl
  signature := ⟨[], [42], rfl, (by decide : Hex.decode "2a" = .ok [42]), rfl⟩
  unseen := rfl

/-- A lifetime of one hour. -/
theorem accepted_alike_hour :
    let expiresAt : DateTime := ⟨3600, 0, by decide, by decide, by decide⟩
    (Shared.echoCall "job" 0 expiresAt.instant).Accepted Shared.echoLibs (.at epoch.instant)
        (.new 2 Shared.hour) ↔
      (echoEnvelope expiresAt).Accepted echoWriter (C := echoCrypto) [[42]] "pmx-core" "host" epoch
        (.new 2 Shared.hour) := by
  intro expiresAt
  have hnanos : expiresAt.nanos < 10 ^ 9 := by decide
  exact (accepted_alike_iff (sameCall_echo hnanos)).mpr fun h => absurd h.1 (by decide)

/-- A lifetime of an hour and half a second: the Go agent refuses, the Rust agent accepts. -/
theorem half_second_more_accepted :
    let expiresAt : DateTime := ⟨3600, 500000000, by decide, by decide, by decide⟩
    ¬ (Shared.echoCall "job" 0 expiresAt.instant).Accepted Shared.echoLibs (.at epoch.instant)
        (.new 2 Shared.hour) ∧
      (echoEnvelope expiresAt).Accepted echoWriter (C := echoCrypto) [[42]] "pmx-core" "host" epoch
        (.new 2 Shared.hour) := by
  intro expiresAt
  constructor
  · intro h
    exact absurd (go_accepted_iff.mp h).2 (by decide)
  · have hnanos : expiresAt.nanos < 10 ^ 9 := by decide
    exact (sameCall_echo hnanos).accepted_iff.mpr ⟨otherChecks_echo (by decide), by decide⟩

end PmxAgents.SharedRust

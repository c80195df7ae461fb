import PmxAgents.SharedRust.Verify
import PmxAgents.Updater.Window

/-!
# The update gate

An update command comes as a signed envelope on standard input. Outside every
maintenance window it is let through only with `override_window`, and then only
if it was signed by the release key, the first key of the key set file.

The gate compares the index it gets from the verification with zero. That index
counts the keys that have not expired, so the first of those passes for the
release key.
-/

namespace PmxAgents.Updater

open Lib Lib.Cbor SharedRust

def agentClass : String := "pmx-updater"

def releaseKeyIndex : Nat := 0

/-- What the updater takes from other crates. -/
structure Crates where
  libs : Libs
  crypto : Crypto
  /-- `Envelope::from_cbor`. -/
  fromCbor : Bytes → Except String Envelope
  /-- The time of day in hours and minutes, as seconds. -/
  parseHM : String → Option Nat

/-- The clock readings of one command: one for each key, those of the
verification, and the one for the windows. -/
structure GateClock where
  keys : Nat → DateTime
  verify : VerifyClock
  windows : DateTime

/-- A command whose readings all show one instant. -/
def GateClock.at (now : DateTime) : GateClock := ⟨fun _ => now, ⟨now, 0, 0⟩, now⟩

inductive UpdaterError where
  | emptyStdin
  | decode (err : String)
  | readKeyset (err : String)
  | keyset (err : KeySetError)
  | readFingerprint (err : String)
  | emptyFingerprint
  | envelope (err : EnvelopeError)

structure VerifiedEnvelope where
  envelope : Envelope
  signingKeyIndex : Nat

/-- The replay cache of the process: eight entries, two hours. -/
def replayCache : ReplayCache := .new 8 (2 * 60 * 60 * 10 ^ 9)

/-- Decode the envelope, read the key set and the host fingerprint, and verify the
envelope with the keys that have not expired. -/
def readAndVerifyEnvelope (X : Crates) (stdin : Bytes)
    (keysetFile fingerprintFile : Except String String)
    (clock : GateClock) (replay : ReplayCache) :
    Except UpdaterError VerifiedEnvelope × ReplayCache :=
  if stdin = [] then (.error .emptyStdin, replay)
  else match X.fromCbor stdin with
  | .error err => (.error (.decode err), replay)
  | .ok env =>
      match keysetFile with
      | .error err => (.error (.readKeyset err), replay)
      | .ok keysetRaw =>
          match KeySet.parse X.crypto keysetRaw with
          | .error err => (.error (.keyset err), replay)
          | .ok keyset =>
              match fingerprintFile with
              | .error err => (.error (.readFingerprint err), replay)
              | .ok raw =>
                  let hostFingerprint := String.ofList (Text.trim raw.toList)
                  if hostFingerprint = "" then (.error .emptyFingerprint, replay)
                  else
                    match env.verifyIdentifying X.libs (keyset.activeKeys clock.keys) agentClass
                      hostFingerprint clock.verify replay with
                    | (.error err, replay') => (.error (.envelope err), replay')
                    | (.ok keyIndex, replay') => (.ok ⟨env, keyIndex⟩, replay')

inductive GateError where
  | window (err : WindowError)
  | outsideMaintenanceWindow
  | overrideRequiresReleaseKey (index : Nat)
  deriving DecidableEq, Repr

/-- Inside a window every command is allowed. Outside, only one with
`override_window` that the key with index zero signed. -/
def checkUpdateAllowed (X : Crates) (windows : WindowSet) (overrideWindow : Bool)
    (signingKeyIndex : Nat) (now : DateTime) : Except GateError Unit :=
  match isNow X.parseHM windows now with
  | .error err => .error (.window err)
  | .ok status =>
      if status.active then .ok ()
      else if ¬ overrideWindow then .error .outsideMaintenanceWindow
      else if signingKeyIndex = releaseKeyIndex then .ok ()
      else .error (.overrideRequiresReleaseKey signingKeyIndex)

/-- The `override_window` param, false unless it is the boolean true. -/
def overrideWindow (params : List (String × Json)) : Bool :=
  match params.lookup "override_window" with
  | some (.bool b) => b
  | _ => false

/-! ## Which key the gate accepts -/

/-- Every override that the gate lets through outside all windows carries a
signature that verifies under the key on the first key line of the file. -/
def OverrideNeedsReleaseKey (X : Crates) (keysetText : String) (clock : GateClock) : Prop :=
  ∀ (stdin : Bytes) (fingerprint : String) (replay replay' : ReplayCache) (windows : WindowSet)
    (v : VerifiedEnvelope),
    readAndVerifyEnvelope X stdin (.ok keysetText) (.ok fingerprint) clock replay =
      (.ok v, replay') →
    overrideWindow v.envelope.params = true →
    (∃ status, isNow X.parseHM windows clock.windows = .ok status ∧ status.active = false) →
    checkUpdateAllowed X windows (overrideWindow v.envelope.params) v.signingKeyIndex
      clock.windows = .ok () →
    ∃ key, KeySet.releaseKey X.crypto keysetText = some key ∧ v.envelope.SignedBy X.libs key

/-- The first key that has not expired is the release key. Nothing is asked of a
file that is refused or whose keys have all expired. -/
def FirstActiveIsRelease (X : Crates) (keysetText : String) (clock : GateClock) : Prop :=
  ∀ keyset key, KeySet.parse X.crypto keysetText = .ok keyset →
    (keyset.activeKeys clock.keys).head? = some key →
    KeySet.releaseKey X.crypto keysetText = some key

/-- What an accepted command tells about the envelope. -/
theorem identify_of_readAndVerifyEnvelope {X : Crates} {stdin : Bytes}
    {keysetText fingerprint : String}
    {clock : GateClock} {replay replay' : ReplayCache} {v : VerifiedEnvelope}
    (h : readAndVerifyEnvelope X stdin (.ok keysetText) (.ok fingerprint) clock replay =
      (.ok v, replay')) :
    ∃ keyset, KeySet.parse X.crypto keysetText = .ok keyset ∧
      v.envelope.identify X.libs (keyset.activeKeys clock.keys) agentClass
        (String.ofList (Text.trim fingerprint.toList)) clock.verify.now =
          .ok v.signingKeyIndex := by
  unfold readAndVerifyEnvelope at h
  split at h
  · cases h
  split at h
  · cases h
  rename_i env henv
  dsimp only at h
  split at h
  · cases h
  rename_i keyset hkeyset
  split at h
  · cases h
  split at h
  · cases h
  rename_i keyIndex replay'' hverify
  obtain rfl := Except.ok.inj (Prod.mk.inj h).1
  exact ⟨keyset, hkeyset, Envelope.identify_of_verifyIdentifying hverify⟩

/-- Outside all windows the gate lets an override through only with index zero. -/
theorem index_of_checkUpdateAllowed {X : Crates} {windows : WindowSet} {index : Nat}
    {now : DateTime}
    (hinactive : ∃ status, isNow X.parseHM windows now = .ok status ∧ status.active = false)
    (h : checkUpdateAllowed X windows true index now = .ok ()) : index = releaseKeyIndex := by
  obtain ⟨status, hstatus, hactive⟩ := hinactive
  unfold checkUpdateAllowed at h
  rw [hstatus] at h
  simp only [hactive, Bool.false_eq_true, if_false, not_true_eq_false] at h
  split_ifs at h with hindex
  exact hindex

/-- If the first active key is the release key, an override needs its signature. -/
theorem overrideNeedsReleaseKey_of_firstActive {X : Crates} {keysetText : String}
    {clock : GateClock} (hfirst : FirstActiveIsRelease X keysetText clock) :
    OverrideNeedsReleaseKey X keysetText clock := by
  intro stdin fingerprint replay replay' windows v hread hoverride hinactive hallowed
  obtain ⟨keyset, hparse, hidentify⟩ := identify_of_readAndVerifyEnvelope hread
  rw [hoverride] at hallowed
  rw [index_of_checkUpdateAllowed hinactive hallowed] at hidentify
  obtain ⟨key, hkey, hsigned⟩ := Envelope.signedBy_of_identify hidentify
  refine ⟨key, hfirst keyset key hparse ?_, hsigned⟩
  rw [List.head?_eq_getElem?]
  exact hkey

/-! ## The exact condition -/

/-- Writing to a growing buffer does not fail. -/
def WriterTotal (X : Crates) : Prop := ∀ v, ∃ buf, X.libs.intoWriter v = .ok buf

/-- Of two different keys of the file, each can sign every message so that the
signature does not verify under the other. -/
def KeysSeparate (X : Crates) (keysetText : String) : Prop :=
  ∀ keyset, KeySet.parse X.crypto keysetText = .ok keyset →
    ∀ e ∈ keyset, ∀ e' ∈ keyset, e.key ≠ e'.key → ∀ message, ∃ bytes sig,
      X.crypto.sigFromSlice bytes = .ok sig ∧ X.crypto.verify e.key message sig = true ∧
        X.crypto.verify e'.key message sig = false

/-- An override command for the host `host`, issued and expiring at one instant. -/
def overrideEnvelope (now : DateTime) (signature : String) : Envelope where
  version := "pmx-agent-v1"
  jobId := "job"
  issuedAt := now
  expiresAt := now
  issuer := "backend"
  audience := "pmx-updater"
  host := "host"
  command := "update.agent.apply"
  params := [("override_window", .bool true)]
  signature := signature
  params_wf := ⟨by simp [KeysSorted], trivial, trivial⟩
  params_fit := ⟨by decide, show (utf8 "override_window").length < 256 ^ 8 by decide, trivial,
    trivial⟩
  texts_fit := by decide

/-- The override command of an instant, under any signature, is the decoding of
some input. -/
def OverrideDecodable (X : Crates) (now : DateTime) : Prop :=
  ∀ bytes, ∃ stdin, stdin ≠ [] ∧ X.fromCbor stdin = .ok (overrideEnvelope now (Hex.encode bytes))

theorem overrideEnvelope_canonicalBytes (L : Libs) (now : DateTime) (s s' : String) :
    (overrideEnvelope now s).canonicalBytes L = (overrideEnvelope now s').canonicalBytes L := rfl

/-- An active key is the key of an entry of the set. -/
theorem mem_of_activeKeys {C : Crypto} {keyset : KeySet C} {now : Nat → DateTime} {key : C.Key}
    (h : (keyset.activeKeys now).head? = some key) : ∃ e ∈ keyset, e.key = key := by
  have hmem : key ∈ keyset.activeKeys now := List.mem_of_head? h
  obtain ⟨⟨e, i⟩, he, rfl⟩ := List.mem_map.mp hmem
  exact ⟨e, (List.mem_zipIdx (List.mem_filter.mp he).1).2.2 ▸ List.getElem_mem _, rfl⟩

/-- An override signed by the first active key passes the gate, whatever its
position in the file. -/
theorem gate_accepts_first_active {X : Crates} {keysetText : String} {clock : GateClock}
    {keyset : KeySet X.crypto} {key : X.crypto.Key} {stdin : Bytes} {signature : String}
    (hparse : KeySet.parse X.crypto keysetText = .ok keyset)
    (hkey : (keyset.activeKeys clock.keys).head? = some key) (hstdin : stdin ≠ [])
    (hdecode : X.fromCbor stdin = .ok (overrideEnvelope clock.verify.now signature))
    (hsigned : (overrideEnvelope clock.verify.now signature).SignedBy X.libs key) :
    ∃ replay', readAndVerifyEnvelope X stdin (.ok keysetText) (.ok "host") clock replayCache =
      (.ok ⟨overrideEnvelope clock.verify.now signature, 0⟩, replay') := by
  obtain ⟨rest, hactive⟩ : ∃ rest, keyset.activeKeys clock.keys = key :: rest := by
    cases h : keyset.activeKeys clock.keys with
    | nil => simp [h] at hkey
    | cons k rest => exact ⟨rest, by simpa [h] using hkey⟩
  have hidentify : (overrideEnvelope clock.verify.now signature).identify X.libs (key :: rest)
      agentClass "host" clock.verify.now = .ok 0 :=
    Envelope.identify_zero rfl rfl rfl rfl rfl hsigned
  have hhost : String.ofList (Text.trim "host".toList) = "host" := by decide
  refine ⟨replayCache.remember "job" clock.verify.remember, ?_⟩
  simp only [readAndVerifyEnvelope, if_neg hstdin, hdecode, hparse, hactive, hhost,
    Envelope.verifyIdentifying, hidentify]
  rfl

theorem firstActive_of_overrideNeedsReleaseKey {X : Crates} {keysetText : String}
    {clock : GateClock} (hwriter : WriterTotal X) (hdecode : OverrideDecodable X clock.verify.now)
    (hseparate : KeysSeparate X keysetText) (hneeds : OverrideNeedsReleaseKey X keysetText clock) :
    FirstActiveIsRelease X keysetText clock := by
  intro keyset key hparse hkey
  obtain ⟨first, rest, hcons, hrelease⟩ := KeySet.parse_ok hparse
  by_contra hne
  obtain ⟨e, he, rfl⟩ := mem_of_activeKeys hkey
  have hkeys : e.key ≠ first.key := fun heq => hne (heq ▸ hrelease)
  obtain ⟨canonical, hcanonical⟩ : ∃ canonical,
      (overrideEnvelope clock.verify.now "").canonicalBytes X.libs = .ok canonical := by
    obtain ⟨buf, hbuf⟩ := hwriter ((overrideEnvelope clock.verify.now "").canonicalValue X.libs)
    exact ⟨buf, by simp only [Envelope.canonicalBytes, hbuf]⟩
  obtain ⟨bytes, sig, hsig, hverify, hreject⟩ :=
    hseparate keyset hparse e he first (by simp [hcons]) hkeys canonical
  rw [overrideEnvelope_canonicalBytes X.libs clock.verify.now "" (Hex.encode bytes)] at hcanonical
  obtain ⟨stdin, hstdin, hfrom⟩ := hdecode bytes
  have hsigned : (overrideEnvelope clock.verify.now (Hex.encode bytes)).SignedBy X.libs e.key :=
    ⟨canonical, bytes, sig, hcanonical, Hex.decode_encode bytes, hsig, hverify⟩
  obtain ⟨replay', hread⟩ := gate_accepts_first_active hparse hkey hstdin hfrom hsigned
  obtain ⟨key', hkey', canonical', bytes', sig', hcanonical', hbytes', hsig', hverify'⟩ :=
    hneeds stdin "host" _ _ [] _ hread rfl ⟨_, rfl, rfl⟩ rfl
  rw [hrelease, Option.some.injEq] at hkey'
  rw [hcanonical, Except.ok.injEq] at hcanonical'
  obtain rfl : bytes = bytes' := Except.ok.inj ((Hex.decode_encode bytes).symm.trans hbytes')
  rw [hsig, Except.ok.injEq] at hsig'
  rw [← hkey', ← hcanonical', ← hsig', hreject] at hverify'
  cases hverify'

/-- The gate asks for the release key exactly when the first key that has not
expired is the release key. -/
theorem overrideNeedsReleaseKey_iff (X : Crates) (keysetText : String) (clock : GateClock)
    (hwriter : WriterTotal X) (hdecode : OverrideDecodable X clock.verify.now)
    (hseparate : KeysSeparate X keysetText) :
    OverrideNeedsReleaseKey X keysetText clock ↔ FirstActiveIsRelease X keysetText clock :=
  ⟨firstActive_of_overrideNeedsReleaseKey hwriter hdecode hseparate,
    overrideNeedsReleaseKey_of_firstActive⟩

/-- Crates in which a key accepts its own bytes as a signature and every expiry is
the epoch. -/
def echoCrates (now : DateTime) : Crates where
  libs := plainLibs
  crypto :=
    { Key := Bytes
      Sig := Bytes
      keyFromBytes := .ok
      sigFromSlice := .ok
      verify := fun key _ sig => key == sig
      parseRfc3339 := fun _ => .ok epoch }
  fromCbor := fun stdin => .ok (overrideEnvelope now (Hex.encode stdin.tail))
  parseHM := fun _ => none

/-- Two keys; the first has expired at the epoch. -/
def rotatedKeyset : String :=
  "aaaaaaaaaaaaaaaaaaaaaaaaaaaaaaaaaaaaaaaaaaaaaaaaaaaaaaaaaaaaaaaa 1970-01-01T00:00:00Z\n" ++
  "bbbbbbbbbbbbbbbbbbbbbbbbbbbbbbbbbbbbbbbbbbbbbbbbbbbbbbbbbbbbbbbb"

instance (now : DateTime) : DecidableEq (echoCrates now).crypto.Key :=
  inferInstanceAs (DecidableEq Bytes)

instance {C : Crypto} [DecidableEq C.Key] : DecidableEq (KeyEntry C) := fun a b =>
  decidable_of_iff (a.key = b.key ∧ a.notAfter = b.notAfter) (by cases a; cases b; simp)

theorem parse_rotatedKeyset :
    KeySet.parse (echoCrates epoch).crypto rotatedKeyset =
      .ok [⟨List.replicate 32 0xaa, some epoch⟩, ⟨List.replicate 32 0xbb, none⟩] := by
  decide +kernel

theorem echoCrates_separate (now : DateTime) (text : String) :
    KeysSeparate (echoCrates now) text := by
  intro keyset _ e _ e' _ hne message
  refine ⟨e.key, e.key, rfl, ?_, ?_⟩
  · exact beq_self_eq_true (α := Bytes) e.key
  · exact beq_eq_false_iff_ne (α := Bytes).mpr hne.symm

theorem overrideNeedsReleaseKey_iff_rotated :
    OverrideNeedsReleaseKey (echoCrates epoch) rotatedKeyset (.at epoch) ↔
      FirstActiveIsRelease (echoCrates epoch) rotatedKeyset (.at epoch) :=
  overrideNeedsReleaseKey_iff (echoCrates epoch) rotatedKeyset (.at epoch)
    (fun _ => ⟨_, rfl⟩) (fun bytes => ⟨0 :: bytes, by simp, rfl⟩)
    (echoCrates_separate epoch rotatedKeyset)

/-- Once the release key of the file has expired, the next key overrides the
windows although the release key rejects its signature. -/
theorem override_without_releaseKey :
    ¬ OverrideNeedsReleaseKey (echoCrates epoch) rotatedKeyset (.at epoch) := by
  intro hneeds
  have hfirst := firstActive_of_overrideNeedsReleaseKey (fun _ => ⟨_, rfl⟩)
    (fun bytes => ⟨0 :: bytes, by simp, rfl⟩) (echoCrates_separate epoch rotatedKeyset) hneeds
  have hrelease := hfirst _ (List.replicate 32 0xbb) parse_rotatedKeyset rfl
  exact absurd hrelease (by decide +kernel)

end PmxAgents.Updater

import PmxAgents.Lib.Checks
import PmxAgents.Lib.Hex
import PmxAgents.Lib.Runs
import PmxAgents.Updater.AgentUpdate

/-!
# Releases of an agent

An update downloads a manifest with its signature, picks the entry of the agent in it, and
downloads the binary of that entry. Manifest and binary are checked with the release key, if
there is one: the key that is built in, or else the configured one. A key that is built in and
cannot be read counts as none.

## Implementation notes

Nothing is assumed about the network: each request may be answered in any way. Signatures,
digests and the JSON of a manifest are given as functions. What is written to the staging file is
read back from it. Errors are shown by their outermost context, as an update reports them.
-/

namespace PmxAgents.Updater.Release

open Lib Lib.Cbor

structure AgentEntry where
  name : String
  arch : String
  url : String
  sha256 : String
  sig : String

structure Manifest where
  schema : String
  version : String
  agents : List AgentEntry

/-- What the libraries compute. -/
structure Primitives (Key : Type) where
  sha256 : Bytes → Bytes
  fromBytes : Bytes → Except String Key
  verify : Key → Bytes → Bytes → Bool
  fromSlice : Bytes → Option Manifest

structure Config where
  bakedReleasePubkeyHex : String
  releasePubkey : String
  manifestUrl : String
  agentArch : String

inductive VerifyError where
  | badManifestSignature
  | badBinarySignature
  | hashMismatch (expected actual : String)
  | hex (err : Hex.HexError)
  | key (message : String)
  | io (err : String)
  deriving DecidableEq, Repr

inductive FetchError where
  | status (code : ℕ)
  | http (err : String)
  | hashMismatch (expected actual : String)
  | io (err : String)

inductive ManifestError where
  | schemaMismatch (expected got : String)
  | json
  | missingEntry (name arch : String)

/-! ## The network -/

/-- `unreachable` is a connection that fails or a timeout. -/
inductive Answer where
  | response (status : ℕ) (body : Except FetchError Bytes)
  | unreachable (err : FetchError)
  | failed (err : FetchError)

/-- The download of a binary: whether the directory, the request and the file can be opened, the
chunks as they arrive and are written, the last write, and reading the file again. -/
structure Download where
  opened : Except FetchError Unit
  chunks : List (Except FetchError Bytes)
  flushed : Except FetchError Unit
  read : Except VerifyError Unit

/-- The answer to each attempt to get a page, and the download of a binary. -/
structure Network where
  get : String → ℕ → Answer
  download : String → Download

def backoffs : List ℕ := [1, 2, 4]

/-- The attempts that are left, from the given one on, after an error. -/
def fetchFrom (get : ℕ → Answer) : (left attempt : ℕ) → FetchError → Except FetchError Bytes
  | 0, _, last => .error last
  | left + 1, attempt, _ =>
      match get attempt with
      | .response status body =>
          if 500 ≤ status ∧ status < 600 then fetchFrom get left (attempt + 1) (.status status)
          else if 400 ≤ status ∧ status < 500 then .error (.status status)
          else body
      | .unreachable err => fetchFrom get left (attempt + 1) err
      | .failed err => .error err

-- there is at least one attempt, so the error given here is never returned
def fetchWithRetry (net : Network) (url : String) : Except FetchError Bytes :=
  fetchFrom (net.get url) backoffs.length 0 (.io "must have at least one attempt")

def trimEndSlashes (url : String) : String :=
  String.ofList (url.toList.rdropWhile (· = '/'))

def fetchManifest (baseUrl : String) (net : Network) : Except FetchError (Bytes × Bytes) := do
  let manifest ← fetchWithRetry net (trimEndSlashes baseUrl ++ "/manifest.json")
  let sig ← fetchWithRetry net (trimEndSlashes baseUrl ++ "/manifest.sig")
  return (manifest, sig)

/-- The bytes of the file once all chunks are written. -/
def writeChunks : List (Except FetchError Bytes) → Bytes → Except FetchError Bytes
  | [], written => .ok written
  | chunk :: rest, written => do
      let bytes ← chunk
      writeChunks rest (written ++ bytes)

section Steps
variable {Key : Type} (P : Primitives Key)

def fetchBinary (expectedSha256 : String) (d : Download) : Except FetchError Bytes := do
  let _ ← d.opened
  let written ← writeChunks d.chunks []
  let _ ← d.flushed
  if Hex.encode (P.sha256 written) ≠ expectedSha256 then
    throw (.hashMismatch expectedSha256 (Hex.encode (P.sha256 written)))
  return written

/-! ## Checks -/

def loadPubkey (text : String) : Except VerifyError Key := do
  let trimmed := Text.trimSpace text
  if (utf8 trimmed).length ≠ 64 then
    throw (.key ("expected 64 hex chars, got " ++ toString (utf8 trimmed).length))
  let raw ← (Hex.decode trimmed).mapError .hex
  if raw.length ≠ 32 then throw (.key "not 32 bytes")
  (P.fromBytes raw).mapError .key

def bakedReleasePubkey (hex : String) : Option Key :=
  if hex = "" then none else (loadPubkey P hex).toOption

def effectiveReleasePubkey (cfg : Config) : Except VerifyError (Option Key) :=
  match bakedReleasePubkey P cfg.bakedReleasePubkeyHex with
  | some k => .ok (some k)
  | none =>
      if cfg.releasePubkey ≠ "" then (loadPubkey P cfg.releasePubkey).map some else .ok none

/-- A signature has 64 bytes. -/
def Signed (k : Key) (data sig : Bytes) : Prop := sig.length = 64 ∧ P.verify k data sig = true

instance (k : Key) (data sig : Bytes) : Decidable (Signed P k data sig) :=
  inferInstanceAs (Decidable (_ ∧ _))

def verifyManifest (bytes sig : Bytes) (k : Key) : Except VerifyError Unit :=
  if Signed P k bytes sig then .ok () else .error .badManifestSignature

def verifyBinary (data : Bytes) (expectedSha256 sigHex : String) (k : Key) :
    Except VerifyError Unit := do
  if Hex.encode (P.sha256 data) ≠ expectedSha256 then
    throw (.hashMismatch expectedSha256 (Hex.encode (P.sha256 data)))
  let sig ← (Hex.decode sigHex).mapError .hex
  if ¬ Signed P k (P.sha256 data) sig then throw .badBinarySignature

/-- Checks with a key are left out if there is none. -/
def withKey (key : Option Key) (check : Key → Except VerifyError Unit) : Except VerifyError Unit :=
  match key with
  | some k => check k
  | none => .ok ()

def manifestSchema : String := "pmx-manifest-v1"

def Manifest.parse (bytes : Bytes) : Except ManifestError Manifest :=
  match P.fromSlice bytes with
  | none => .error .json
  | some m =>
      if m.schema ≠ manifestSchema then .error (.schemaMismatch manifestSchema m.schema) else .ok m

def Manifest.findEntry (m : Manifest) (name arch : String) : Except ManifestError AgentEntry :=
  match m.agents.find? fun e => e.name = name ∧ e.arch = arch with
  | some e => .ok e
  | none => .error (.missingEntry name arch)

/-! ## The download of a release -/

def context {ε α : Type} (text : String) (m : Except ε α) : Except String α :=
  m.mapError fun _ => text

/-- The steps of an update before the new version is installed. -/
def download (cfg : Config) (agent : String) (net : Network) : Except String (String × Binary) := do
  if cfg.manifestUrl = "" then throw "manifest_url is not configured — cannot apply update"
  let (manifest, sig) ← context "fetch manifest" (fetchManifest cfg.manifestUrl net)
  let key ← context "resolve release pubkey" (effectiveReleasePubkey P cfg)
  let _ ← context "verify manifest signature" (withKey key (verifyManifest P manifest sig))
  let m ← context "parse manifest" (Manifest.parse P manifest)
  let entry ← context "find agent entry in manifest" (m.findEntry agent cfg.agentArch)
  let staged ← context "fetch binary" (fetchBinary P entry.sha256 (net.download entry.url))
  let key ← context "resolve release pubkey for binary" (effectiveReleasePubkey P cfg)
  let _ ← context "verify binary signature" (withKey key fun k => do
    let _ ← (net.download entry.url).read
    verifyBinary P staged entry.sha256 entry.sig k)
  return (m.version, staged)

/-- The release key has signed the digest of the binary, and a manifest that lists it for the
agent and the architecture. -/
def Authentic (cfg : Config) (agent : String) (k : Key) (b : Binary) : Prop :=
  ∃ manifest sig m entry binarySig, Signed P k manifest sig ∧ Manifest.parse P manifest = .ok m ∧
    entry ∈ m.agents ∧ entry.name = agent ∧ entry.arch = cfg.agentArch ∧
    entry.sha256 = Hex.encode (P.sha256 b) ∧ Hex.decode entry.sig = .ok binarySig ∧
    Signed P k (P.sha256 b) binarySig

variable {P}

theorem context_eq_ok {ε α : Type} {text : String} {m : Except ε α} {v : α} :
    context text m = .ok v ↔ m = .ok v :=
  Checks.mapError_eq_ok

theorem signed_of_verifyManifest {bytes sig : Bytes} {k : Key}
    (h : verifyManifest P bytes sig k = .ok ()) : Signed P k bytes sig := by
  by_contra hnot
  rw [verifyManifest, if_neg hnot] at h
  cases h

theorem signed_of_verifyBinary {data : Bytes} {expected sigHex : String} {k : Key}
    (h : verifyBinary P data expected sigHex k = .ok ()) :
    expected = Hex.encode (P.sha256 data) ∧
      ∃ sig, Hex.decode sigHex = .ok sig ∧ Signed P k (P.sha256 data) sig := by
  rw [verifyBinary] at h
  obtain ⟨hhash, h⟩ := Checks.ite_throw_bind_eq_ok.mp h
  obtain ⟨sig, hsig, h⟩ := Checks.bind_eq_ok.mp h
  obtain ⟨hsigned, -⟩ := Checks.ite_throw_eq_ok.mp h
  exact ⟨(not_not.mp hhash).symm, sig, Checks.mapError_eq_ok.mp hsig, not_not.mp hsigned⟩

theorem mem_of_findEntry {m : Manifest} {name arch : String} {e : AgentEntry}
    (h : m.findEntry name arch = .ok e) : e ∈ m.agents ∧ e.name = name ∧ e.arch = arch := by
  cases hfind : m.agents.find? fun e => e.name = name ∧ e.arch = arch with
  | none =>
      rw [Manifest.findEntry, hfind] at h
      cases h
  | some found =>
      rw [Manifest.findEntry, hfind] at h
      obtain rfl := Except.ok.inj h
      have hmatch := List.find?_some hfind
      exact ⟨List.mem_of_find?_eq_some hfind, of_decide_eq_true hmatch⟩

/-- With a release key nothing else is downloaded. -/
theorem authentic_of_download {cfg : Config} {agent : String} {net : Network} {k : Key}
    {version : String} {b : Binary} (hkey : effectiveReleasePubkey P cfg = .ok (some k))
    (h : download P cfg agent net = .ok (version, b)) : Authentic P cfg agent k b := by
  rw [download] at h
  obtain ⟨-, h⟩ := Checks.ite_throw_bind_eq_ok.mp h
  obtain ⟨⟨manifest, sig⟩, -, h⟩ := Checks.bind_eq_ok.mp h
  obtain ⟨key, hfirst, h⟩ := Checks.bind_eq_ok.mp h
  obtain ⟨_, hmanifest, h⟩ := Checks.bind_eq_ok.mp h
  obtain ⟨m, hparse, h⟩ := Checks.bind_eq_ok.mp h
  obtain ⟨entry, hentry, h⟩ := Checks.bind_eq_ok.mp h
  obtain ⟨staged, -, h⟩ := Checks.bind_eq_ok.mp h
  obtain ⟨key', hsecond, h⟩ := Checks.bind_eq_ok.mp h
  obtain ⟨_, hbinary, h⟩ := Checks.bind_eq_ok.mp h
  obtain ⟨rfl, rfl⟩ := Prod.mk.inj (Except.ok.inj h)
  obtain rfl := Except.ok.inj (hkey.symm.trans (context_eq_ok.mp hfirst))
  obtain rfl := Except.ok.inj (hkey.symm.trans (context_eq_ok.mp hsecond))
  obtain ⟨_, -, hverified⟩ := Checks.bind_eq_ok.mp (context_eq_ok.mp hbinary)
  obtain ⟨hhash, binarySig, hdecode, hsigned⟩ := signed_of_verifyBinary hverified
  obtain ⟨hmem, hname, harch⟩ := mem_of_findEntry (context_eq_ok.mp hentry)
  exact ⟨manifest, sig, m, entry, binarySig, signed_of_verifyManifest (context_eq_ok.mp hmanifest),
    context_eq_ok.mp hparse, hmem, hname, harch, hhash, hdecode, hsigned⟩

end Steps

/-! ## Updates -/

/-- A placed binary is the only new file. -/
theorem files_place {a : Agent} {l : Layout} {version : String} {staged b : Binary}
    {p : FileSystem.Path} (h : (l.place a version staged).files p = some b) :
    l.files p = some b ∨ b = staged := by
  by_cases hp : p = a.binary version
  · subst hp
    have hself : (l.place a version staged).files (a.binary version) = some staged :=
      Function.update_self _ _ _
    exact Or.inr (Option.some.inj (h.symm.trans hself))
  · exact Or.inl ((Function.update_of_ne hp _ _).symm.trans h)

theorem files_execute {a : Agent} {host : Host} {handle : SwapHandle} {l : Layout}
    (hdisk : host.rollbackError = none) : (execute a host handle l).2.1.files = l.files := by
  rw [execute, hdisk, rollback]
  cases handle.oldVersion <;> rfl

/-- An update puts nothing but its download among the files. -/
theorem files_applyAsync {a : Agent} {host : Host} {l : Layout} {p : FileSystem.Path} {b : Binary}
    (hinstall : host.installError = none) (hrollback : host.rollbackError = none)
    (h : (applyAsync a host l).layout.files p = some b) :
    l.files p = some b ∨ ∃ version, host.download = .ok (version, b) := by
  cases hdownload : host.download with
  | error err =>
      rw [applyAsync, hdownload] at h
      exact Or.inl h
  | ok release =>
      obtain ⟨version, staged⟩ := release
      suffices hplace : (l.place a version staged).files p = some b by
        apply (files_place hplace).imp_right
        rintro rfl
        exact ⟨version, rfl⟩
      rw [applyAsync, hdownload, hinstall] at h
      have hinstalled : (installNewVersion a version staged l).2.files =
          (l.place a version staged).files := rfl
      by_cases hself : a.name = "pmx-updater"
      · simp only [if_pos hself, applySelf] at h
        cases hexec : host.execError <;> simpa only [hexec] using h
      · simp only [if_neg hself] at h
        cases hhealth : (checkPersistent a.name host.moments host.clock).1 with
        | ok _ => simpa only [hhealth, hinstalled] using h
        | error err => simpa only [hhealth, files_execute hrollback, hinstalled] using h

structure Update where
  host : Host
  net : Network

/-- An update from the network. -/
def updateStep {Key : Type} (P : Primitives Key) (cfg : Config) (a : Agent) (l : Layout)
    (u : Update) : Option Layout :=
  some (applyAsync a { u.host with download := download P cfg a.name u.net } l).layout

/-- The copy of the binary and a rollback find no failing disk. -/
def Update.Writes (u : Update) : Prop := u.host.installError = none ∧ u.host.rollbackError = none

/-- After any updates from any network, every file that was not there before, and so whatever
`current` leads to, is a binary that the release key has signed for the agent. -/
theorem updates_authentic {Key : Type} (P : Primitives Key) (cfg : Config) (a : Agent) (k : Key)
    (hkey : effectiveReleasePubkey P cfg = .ok (some k)) (l l' : Layout) (updates : List Update)
    (hwrites : ∀ u ∈ updates, u.Writes)
    (hrun : Runs.exec (updateStep P cfg a) l updates = some l') :
    (∀ p b, l'.files p = some b → l.files p = some b ∨ Authentic P cfg a.name k b) ∧
      ∀ b, l'.live a = some b → (∃ p, l.files p = some b) ∨ Authentic P cfg a.name k b := by
  have hfiles : ∀ p b, l'.files p = some b → l.files p = some b ∨ Authentic P cfg a.name k b := by
    apply Runs.exec_invariant ?_ (fun _ _ h => Or.inl h) (Runs.admits_of_forall hwrites) hrun
    intro s u t hs hok hstep p b hb
    obtain rfl := Option.some.inj hstep
    rcases files_applyAsync (by exact hok.1) (by exact hok.2) hb with hold | ⟨version, hnew⟩
    · exact hs p b hold
    · exact Or.inr (authentic_of_download hkey hnew)
  refine ⟨hfiles, fun b hlive => ?_⟩
  obtain ⟨target, -, hb⟩ := Option.bind_eq_some_iff.mp hlive
  exact (hfiles _ b hb).imp_left fun h => ⟨_, h⟩

/-- A scheme in which a signature begins with the first byte of what is signed. -/
def plainPrimitives : Primitives Unit where
  sha256 := id
  fromBytes _ := .ok ()
  verify _ data sig := sig.head? == data.head?
  fromSlice bytes := some ⟨manifestSchema, "1.4.2",
    [⟨"pmx-network", "amd64", "https://releases/pmx-network", Hex.encode bytes,
      Hex.encode (List.replicate 64 7)⟩]⟩

def plainConfig : Config :=
  ⟨"", String.ofList (List.replicate 64 '0'), "https://releases/", "amd64"⟩

def plainUpdate : Update where
  host := steadyHost fun _ => ⟨true, true⟩
  net := {
    get := fun url _ => .response 200
      (.ok (if url = "https://releases/manifest.sig" then List.replicate 64 7 else [7]))
    download := fun _ => ⟨.ok (), [.ok [7]], .ok (), .ok ()⟩ }

theorem updates_authentic_plain :
    effectiveReleasePubkey plainPrimitives plainConfig = .ok (some ()) ∧ plainUpdate.Writes ∧
      Authentic plainPrimitives plainConfig networkAgent.name () [7] := by
  have hkey : effectiveReleasePubkey plainPrimitives plainConfig = .ok (some ()) := by
    decide +kernel
  have hwrites : plainUpdate.Writes := ⟨rfl, rfl⟩
  obtain ⟨l', hrun, hlive⟩ : ∃ l', Runs.exec (updateStep plainPrimitives plainConfig networkAgent)
      .empty [plainUpdate] = some l' ∧ l'.live networkAgent = some [7] :=
    ⟨_, rfl, by decide +kernel⟩
  refine ⟨hkey, hwrites, ?_⟩
  obtain ⟨p, hp⟩ | hauthentic := (updates_authentic plainPrimitives plainConfig networkAgent () hkey
    .empty l' [plainUpdate] (by simpa using hwrites) hrun).2 [7] hlive
  · cases hp
  · exact hauthentic

end PmxAgents.Updater.Release

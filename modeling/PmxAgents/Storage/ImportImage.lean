import Mathlib.Logic.Function.Basic
import PmxAgents.Lib.Checks
import PmxAgents.Lib.FileSystem
import PmxAgents.Lib.Hex
import PmxAgents.Lib.PartialCopy
import PmxAgents.Lib.Runs
import PmxAgents.Lib.Text

/-!
# Importing a disk image

`disk.import-image` downloads an image into a partial file, whose name is made of the import's
id alone, and then converts it into its destination or moves it there. A partial file that is
there already is completed: the request asks for the bytes behind it. It is left where it is after
a conversion, after every failure, and when the call is interrupted.

## Implementation notes

Files are kept by their paths, without links. `Fates` says how the operations of a call end; what
`qemu-img` leaves at the destination is one of them. A web is the objects that the servers hold
during a call. The servers honour a range and answer 416 to one that starts at or behind the end
of the object. Parsing a URL and the digest are functions of the standard library that nothing
depends on.
-/

namespace PmxAgents.Storage.ImportImage

open Lib Lib.Cbor Lib.Checks Lib.FileSystem Lib.PartialCopy Lib.PathText Lib.Runs Lib.Text

abbrev Files := Path → Option Bytes

structure Url where
  scheme : String
  hostname : String

structure Params where
  id : String
  sourceURL : String
  allowedHosts : List String
  sourceFormat : String
  destination : String
  storageRoot : String

inductive ImportError where
  | urlAndDestinationRequired
  | invalidURL
  | scheme
  | allowlistRequired
  | hostNotAllowed (host : String)
  | makeStorageRoot
  | unsafeID
  | makeImports
  | rootNotAbsolute
  | destinationRequired
  | escapesRoot
  | targetsDev
  | makeParent
  | openTarget
  | seek
  | buildRequest
  | download
  | unexpectedStatus (status : ℕ)
  | resetPartial
  | rewindAfterReset
  | writeBody
  | rewind
  | checksum
  | convert
  | move
  /-- The process ends before it answers. -/
  | interrupted
  deriving DecidableEq

/-- How the operations of a call end; the copy of the body after how many bytes, if with an
error. -/
structure Fates where
  now : Int
  makeStorageRoot : Bool
  makeImports : Bool
  makeParent : Bool
  openTarget : Bool
  seek : Bool
  buildRequest : Bool
  request : Bool
  truncate : Bool
  rewindAfterReset : Bool
  copy : Option ℕ
  rewind : Bool
  checksum : Bool
  convert : Bool
  converted : Option Bytes
  rename : Bool
  returns : Bool

structure Call where
  cwd : Path
  params : Params
  web : String → Option Bytes
  fates : Fates

/-! ## The paths -/

section Paths
variable (parseURL : String → Option Url)

def validateAllowlistedURL (rawURL : String) (allowlist : List String) : Except ImportError Unit :=
  match parseURL rawURL with
  | none => .error .invalidURL
  | some u =>
      let host := Casing.toLower u.hostname
      if u.scheme ≠ "http" ∧ u.scheme ≠ "https" then .error .scheme
      else if allowlist = [] then .error .allowlistRequired
      else if allowlist.any fun allowed => host == Casing.toLower (trimSpace allowed) then .ok ()
      else .error (.hostNotAllowed host)

def isImportIDChar (c : Char) : Bool := c.isAlphanum || c == '.' || c == '_' || c == '-'

def sanitizeImportID (now : Int) (value : String) : Except ImportError String :=
  let id := if trimSpace value = "" then "import-" ++ toString now else trimSpace value
  if id.toList.all isImportIDChar then .ok id else .error .unsafeID

def resolvePathWithinRoot (makeParent : Bool) (root requested : String) :
    Except ImportError Path :=
  let rootText := trimSpace root
  let rootClean := clean (components rootText.toList)
  let req := trimSpace requested
  let candidate := resolve rootClean req
  if !isAbsolute rootText then .error .rootNotAbsolute
  else if req = "" then .error .destinationRequired
  else if !rootClean.isPrefixOf candidate then .error .escapesRoot
  else if candidate.head? = some "dev" ∧ 1 < candidate.length then .error .targetsDev
  else if !makeParent then .error .makeParent
  else .ok candidate

def Params.root (p : Params) : String :=
  if p.storageRoot = "" then "/var/lib/pmx-cloud/storage" else p.storageRoot

/-- The checks before the download: the partial file and the destination. -/
def prepare (c : Call) : Except ImportError (Path × Path) := do
  let p := c.params
  if p.sourceURL = "" ∨ p.destination = "" then throw .urlAndDestinationRequired
  else
    validateAllowlistedURL parseURL p.sourceURL p.allowedHosts
    if !c.fates.makeStorageRoot then throw .makeStorageRoot
    else
      let id ← sanitizeImportID c.fates.now p.id
      if !c.fates.makeImports then throw .makeImports
      else
        let destination ← resolvePathWithinRoot c.fates.makeParent p.root p.destination
        return (resolve c.cwd p.root ++ ["imports", id ++ ".part"], destination)

end Paths

/-! ## The download -/

structure Response where
  status : ℕ
  body : Bytes

/-- The answer to a request for an object, from an offset on if one is given. -/
def serve : Option Bytes → Option ℕ → Response
  | none, _ => ⟨404, []⟩
  | some object, none => ⟨200, object⟩
  | some object, some offset =>
      if offset < object.length then ⟨206, object.drop offset⟩ else ⟨416, []⟩

/-- What was downloaded: the bytes, their digest and whether a partial file was completed. -/
structure Downloaded where
  content : Bytes
  sha256 : String
  resumed : Bool
  deriving DecidableEq

section Download
variable (sha256 : Bytes → Bytes)

/-- Write the body into the file from the offset on, and read the whole file back. -/
def writeBody (f : Fates) (resp : Response) (opened : Bytes) (offset : ℕ) :
    Except ImportError Downloaded × Option Bytes :=
  match f.copy with
  | some n => (.error .writeBody, writeAt opened offset (resp.body.take n))
  | none =>
      let content := writeAt opened offset resp.body
      if !f.rewind then (.error .rewind, content)
      else if !f.checksum then (.error .checksum, content)
      else
        (.ok ⟨content, Hex.encode (sha256 content), decide (0 < offset) && resp.status == 206⟩,
          content)

def resumeDownload (f : Fates) (respond : Option ℕ → Response) (file : Option Bytes) :
    Except ImportError Downloaded × Option Bytes :=
  let opened := file.getD []
  let offset := opened.length
  if !f.openTarget then (.error .openTarget, file)
  else if !f.seek then (.error .seek, some opened)
  else if !f.buildRequest then (.error .buildRequest, some opened)
  else if !f.request then (.error .download, some opened)
  else
    let resp := respond (if 0 < offset then some offset else none)
    if resp.status ≠ 200 ∧ resp.status ≠ 206 then
      (.error (.unexpectedStatus resp.status), some opened)
    else if 0 < offset ∧ resp.status = 200 then
      -- the server ignored the range and sent the full object
      if !f.truncate then (.error .resetPartial, some opened)
      else if !f.rewindAfterReset then (.error .rewindAfterReset, some [])
      else writeBody sha256 f resp [] 0
    else writeBody sha256 f resp opened offset

/-! ## The import -/

structure Imported where
  downloadedPath : Path
  destination : Path
  downloaded : Downloaded
  deriving DecidableEq

def fmtLower (v : String) : String := Casing.toLower (trimSpace v)

/-- The image is in a format that has to be converted. -/
def Call.converts (c : Call) : Bool :=
  fmtLower c.params.sourceFormat ≠ "" && fmtLower c.params.sourceFormat ≠ "raw"

/-- Convert the partial file into the destination or move it there. -/
def place (c : Call) (partialPath destination : Path) (d : Downloaded) (files : Files) :
    Except ImportError Imported × Files :=
  let answer := fun src : Path =>
    if c.fates.returns then Except.ok ⟨src, destination, d⟩ else .error .interrupted
  if c.converts then
    let files := Function.update files destination c.fates.converted
    if !c.fates.convert then (.error .convert, files) else (answer destination, files)
  else if partialPath ≠ destination then
    if !c.fates.rename then (.error .move, files)
    else
      (answer destination,
        Function.update (Function.update files destination (files partialPath)) partialPath none)
  else (answer partialPath, files)

/-- `disk.import-image`, and the files it leaves. -/
def importImage (parseURL : String → Option Url) (c : Call) (files : Files) :
    Except ImportError Imported × Files :=
  match prepare parseURL c with
  | .error e => (.error e, files)
  | .ok (partialPath, destination) =>
      let done := resumeDownload sha256 c.fates (serve (c.web c.params.sourceURL))
        (files partialPath)
      let files := Function.update files partialPath done.2
      match done.1 with
      | .error e => (.error e, files)
      | .ok d => place c partialPath destination d files

end Download

/-! ## What an import promises -/

/-- The operations of the download go well. -/
def Fates.Downloads (f : Fates) : Prop :=
  f.openTarget ∧ f.seek ∧ f.buildRequest ∧ f.request ∧ f.copy = none ∧ f.rewind ∧ f.checksum

section Promises
variable (sha256 : Bytes → Bytes) (parseURL : String → Option Url)

def importStep (files : Files) (c : Call) : Option Files :=
  some (importImage sha256 parseURL c files).2

/-- If the call succeeds, it has downloaded the object at its URL, reports the digest of the object,
and an image that is not converted is at its destination. -/
def Right (files : Files) (c : Call) : Prop :=
  ∀ imported, (importImage sha256 parseURL c files).1 = .ok imported →
    ∃ object, c.web c.params.sourceURL = some object ∧ imported.downloaded.content = object ∧
      imported.downloaded.sha256 = Hex.encode (sha256 object) ∧
      (c.converts = false →
        (importImage sha256 parseURL c files).2 imported.destination = some object)

/-- Nothing stops the call. -/
def Clear (c : Call) (partialPath destination : Path) : Prop :=
  prepare parseURL c = .ok (partialPath, destination) ∧
    c.fates.Downloads ∧ (c.converts → c.fates.convert) ∧
    (c.converts = false → partialPath ≠ destination → c.fates.rename) ∧ c.fates.returns

/-- If nothing stops the call and there is an object, the call succeeds. -/
def Recovers (files : Files) (c : Call) : Prop :=
  ∀ partialPath destination, Clear parseURL c partialPath destination →
    ∀ object, c.web c.params.sourceURL = some object →
      ∃ imported, (importImage sha256 parseURL c files).1 = .ok imported

/-- If nothing stops the call and there is an object, the partial file is a first part of the object
that is empty or not all of it. -/
def Fits (files : Files) (c : Call) : Prop :=
  ∀ partialPath destination, Clear parseURL c partialPath destination →
    ∀ object, c.web c.params.sourceURL = some object →
      ∀ part, files partialPath = some part →
        part <+: object ∧ (part = [] ∨ part.length < object.length)

end Promises

/-! ## One call -/

section Call
variable {sha256 : Bytes → Bytes} {parseURL : String → Option Url} {c : Call} {f : Fates}
  {files : Files} {partialPath destination : Path} {file : Option Bytes} {object opened : Bytes}
  {d : Downloaded} {imported : Imported} {resp : Response} {offset : ℕ}

theorem writeBody_eq_ok (h : (writeBody sha256 f resp opened offset).1 = .ok d) :
    f.copy = none ∧ f.rewind ∧ f.checksum ∧ d.content = writeAt opened offset resp.body ∧
      d.sha256 = Hex.encode (sha256 d.content) ∧
      (writeBody sha256 f resp opened offset).2 = some d.content := by
  unfold writeBody at h ⊢
  cases hcopy : f.copy with
  | some n =>
      rw [hcopy] at h
      cases h
  | none =>
      rw [hcopy] at h
      obtain ⟨hrewind, h⟩ := Checks.ite_error_fst_eq_ok.mp h
      obtain ⟨hsum, h⟩ := Checks.ite_error_fst_eq_ok.mp h
      obtain rfl := Except.ok.inj h
      dsimp only
      rw [if_neg hrewind, if_neg hsum]
      exact ⟨rfl, by simpa using hrewind, by simpa using hsum, rfl, rfl, rfl⟩

theorem writeBody_of_downloads (hf : f.Downloads) (resp : Response) (opened : Bytes) (offset : ℕ) :
    ∃ d, (writeBody sha256 f resp opened offset).1 = .ok d := by
  obtain ⟨-, -, -, -, hcopy, hrewind, hsum⟩ := hf
  rw [writeBody, hcopy]
  dsimp only
  rw [if_neg (by simp [hrewind]), if_neg (by simp [hsum])]
  exact ⟨_, rfl⟩

/-- The answer to the request for what is missing, and how much there is already. -/
theorem serve_missing (object part : Bytes) :
    (part = [] ∧ serve (some object) (if 0 < part.length then some part.length else none) =
        ⟨200, object⟩) ∨
    (0 < part.length ∧ part.length < object.length ∧
      serve (some object) (if 0 < part.length then some part.length else none) =
        ⟨206, object.drop part.length⟩) ∨
    (part ≠ [] ∧ object.length ≤ part.length ∧
      serve (some object) (if 0 < part.length then some part.length else none) = ⟨416, []⟩) := by
  rcases Nat.eq_zero_or_pos part.length with hzero | hpos
  · obtain rfl := List.eq_nil_of_length_eq_zero hzero
    exact Or.inl ⟨rfl, rfl⟩
  · refine Or.inr ?_
    rw [if_pos hpos, serve]
    by_cases hlt : part.length < object.length
    · exact Or.inl ⟨hpos, hlt, if_pos hlt⟩
    · exact Or.inr ⟨List.ne_nil_of_length_pos hpos, Nat.le_of_not_lt hlt, if_neg hlt⟩

/-- The flags in front of the request are set, or the download fails. -/
theorem resumeDownload_flags {respond : Option ℕ → Response}
    (h : (resumeDownload sha256 f respond file).1 = .ok d) :
    f.openTarget ∧ f.seek ∧ f.buildRequest ∧ f.request := by
  unfold resumeDownload at h
  obtain ⟨hopen, h⟩ := Checks.ite_error_fst_eq_ok.mp h
  obtain ⟨hseek, h⟩ := Checks.ite_error_fst_eq_ok.mp h
  obtain ⟨hbuild, h⟩ := Checks.ite_error_fst_eq_ok.mp h
  obtain ⟨hrequest, -⟩ := Checks.ite_error_fst_eq_ok.mp h
  simp only [Bool.not_eq_true', Bool.not_eq_false] at hopen hseek hbuild hrequest
  exact ⟨hopen, hseek, hbuild, hrequest⟩

/-- A download behind the request. -/
theorem resumeDownload_of_flags {respond : Option ℕ → Response}
    (h : f.openTarget ∧ f.seek ∧ f.buildRequest ∧ f.request) {status : ℕ} {body : Bytes}
    (hresp : respond (if 0 < (file.getD []).length then some (file.getD []).length else none) =
      ⟨status, body⟩) :
    resumeDownload sha256 f respond file =
      if status ≠ 200 ∧ status ≠ 206 then
        (.error (.unexpectedStatus status), some (file.getD []))
      else if 0 < (file.getD []).length ∧ status = 200 then
        if !f.truncate then (.error .resetPartial, some (file.getD []))
        else if !f.rewindAfterReset then (.error .rewindAfterReset, some [])
        else writeBody sha256 f ⟨status, body⟩ [] 0
      else writeBody sha256 f ⟨status, body⟩ (file.getD []) (file.getD []).length := by
  obtain ⟨hopen, hseek, hbuild, hrequest⟩ := h
  unfold resumeDownload
  dsimp only
  rw [if_neg (by simp [hopen]), if_neg (by simp [hseek]), if_neg (by simp [hbuild]),
    if_neg (by simp [hrequest]), hresp]

/-- What a download from a server that honours ranges comes down to. -/
theorem resumeDownload_serve (h : f.openTarget ∧ f.seek ∧ f.buildRequest ∧ f.request) :
    resumeDownload sha256 f (serve (some object)) file =
      if file.getD [] = [] ∨ (file.getD []).length < object.length then
        writeBody sha256 f (serve (some object)
            (if 0 < (file.getD []).length then some (file.getD []).length else none))
          (file.getD []) (file.getD []).length
      else (.error (.unexpectedStatus 416), some (file.getD [])) := by
  rcases serve_missing object (file.getD []) with ⟨hnil, hserve⟩ | ⟨hpos, hlt, hserve⟩ |
    ⟨hne, hle, hserve⟩
  · rw [resumeDownload_of_flags h hserve, if_neg (by decide), if_neg (by simp [hnil]),
      if_pos (Or.inl hnil), hserve]
  · rw [resumeDownload_of_flags h hserve, if_neg (by decide), if_neg (by simp),
      if_pos (Or.inr hlt), hserve]
  · rw [resumeDownload_of_flags h hserve, if_pos (by decide), if_neg (by simp [hne]; omega)]

theorem serve_body {part : Bytes} (h : part = [] ∨ part.length < object.length) :
    (serve (some object) (if 0 < part.length then some part.length else none)).body =
      object.drop part.length := by
  rcases serve_missing object part with ⟨hnil, hserve⟩ | ⟨-, -, hserve⟩ | ⟨hne, hle, -⟩
  · rw [hserve, hnil]
    rfl
  · rw [hserve]
  · rcases h with hnil | hlt
    · exact absurd hnil hne
    · omega

/-- A download that succeeds has completed the partial file. -/
theorem resumeDownload_ok {served : Option Bytes}
    (h : (resumeDownload sha256 f (serve served) file).1 = .ok d) :
    f.Downloads ∧ ∃ object, served = some object ∧
      (file.getD [] = [] ∨ (file.getD []).length < object.length) ∧
      d.content = file.getD [] ++ object.drop (file.getD []).length ∧
      d.sha256 = Hex.encode (sha256 d.content) ∧
      (resumeDownload sha256 f (serve served) file).2 = some d.content := by
  have hflags := resumeDownload_flags h
  cases served with
  | none =>
      have hserve : serve none
          (if 0 < (file.getD []).length then some (file.getD []).length else none) =
            ⟨404, []⟩ := rfl
      rw [resumeDownload_of_flags hflags hserve, if_pos (by decide)] at h
      cases h
  | some object =>
      rw [resumeDownload_serve hflags] at h ⊢
      by_cases hpart : file.getD [] = [] ∨ (file.getD []).length < object.length
      · rw [if_pos hpart] at h ⊢
        obtain ⟨hcopy, hrewind, hsum, hcontent, hsha, hfile⟩ := writeBody_eq_ok h
        obtain ⟨hopen, hseek, hbuild, hrequest⟩ := hflags
        rw [writeAt_length, serve_body hpart] at hcontent
        exact ⟨⟨hopen, hseek, hbuild, hrequest, hcopy, hrewind, hsum⟩, object, rfl, hpart, hcontent,
          hsha, hfile⟩
      · rw [if_neg hpart] at h
        cases h

theorem resumeDownload_of_downloads (hf : f.Downloads)
    (hpart : file.getD [] = [] ∨ (file.getD []).length < object.length) :
    ∃ d, (resumeDownload sha256 f (serve (some object)) file).1 = .ok d := by
  rw [resumeDownload_serve ⟨hf.1, hf.2.1, hf.2.2.1, hf.2.2.2.1⟩, if_pos hpart]
  exact writeBody_of_downloads hf _ _ _

/-- The rest of a call that succeeds: what was downloaded is reported, and is at the destination if
it is not converted. -/
theorem place_ok (h : (place c partialPath destination d files).1 = .ok imported) :
    imported.downloaded = d ∧ imported.destination = destination ∧
      (c.converts → c.fates.convert) ∧
      (c.converts = false → partialPath ≠ destination → c.fates.rename) ∧ c.fates.returns ∧
      (c.converts = false →
        (place c partialPath destination d files).2 destination = files partialPath) := by
  have hanswer : ∀ src : Path, (if c.fates.returns then
      (Except.ok ⟨src, destination, d⟩ : Except ImportError Imported) else .error .interrupted) =
        .ok imported → imported = ⟨src, destination, d⟩ ∧ c.fates.returns := by
    intro src hsrc
    split_ifs at hsrc with hreturns
    exact ⟨(Except.ok.inj hsrc).symm, hreturns⟩
  unfold place at h ⊢
  dsimp only at h ⊢
  by_cases hconverts : c.converts = true
  · rw [if_pos hconverts] at h
    obtain ⟨hconvert, h⟩ := Checks.ite_error_fst_eq_ok.mp h
    obtain ⟨rfl, hreturns⟩ := hanswer _ h
    simp only [Bool.not_eq_true', Bool.not_eq_false] at hconvert
    simp [hconverts, hconvert, hreturns]
  · rw [if_neg hconverts] at h ⊢
    by_cases hsame : partialPath = destination
    · rw [if_neg (by simp [hsame])] at h ⊢
      obtain ⟨rfl, hreturns⟩ := hanswer _ h
      exact ⟨rfl, rfl, fun hc => absurd hc hconverts, fun _ hne => absurd hsame hne, hreturns,
        fun _ => by rw [hsame]⟩
    · rw [if_pos hsame] at h ⊢
      obtain ⟨hrename, h⟩ := Checks.ite_error_fst_eq_ok.mp h
      obtain ⟨rfl, hreturns⟩ := hanswer _ h
      rw [if_neg hrename]
      refine ⟨rfl, rfl, fun hc => absurd hc hconverts, fun _ _ => by simpa using hrename, hreturns,
        fun _ => ?_⟩
      dsimp only
      rw [Function.update_of_ne (fun heq => hsame heq.symm), Function.update_self]

theorem place_of_clear (h : Clear parseURL c partialPath destination) :
    ∃ imported, (place c partialPath destination d files).1 = .ok imported := by
  obtain ⟨-, -, hconvert, hrename, hreturns⟩ := h
  unfold place
  dsimp only
  by_cases hconverts : c.converts = true
  · rw [if_pos hconverts, if_neg (by simp [hconvert hconverts]), if_pos hreturns]
    exact ⟨_, rfl⟩
  · rw [if_neg hconverts]
    by_cases hsame : partialPath = destination
    · rw [if_neg (by simp [hsame]), if_pos hreturns]
      exact ⟨_, rfl⟩
    · rw [if_pos hsame, if_neg (by simp [hrename (by simpa using hconverts) hsame]),
        if_pos hreturns]
      exact ⟨_, rfl⟩

/-- A call that succeeds was not stopped, and has completed the partial file. -/
theorem importImage_ok (h : (importImage sha256 parseURL c files).1 = .ok imported) :
    ∃ partialPath destination, Clear parseURL c partialPath destination ∧
      ∃ object, c.web c.params.sourceURL = some object ∧
        ((files partialPath).getD [] = [] ∨
          ((files partialPath).getD []).length < object.length) ∧
        imported.downloaded.content =
          (files partialPath).getD [] ++ object.drop ((files partialPath).getD []).length ∧
        imported.downloaded.sha256 = Hex.encode (sha256 imported.downloaded.content) ∧
        (c.converts = false → (importImage sha256 parseURL c files).2 imported.destination =
          some imported.downloaded.content) := by
  unfold importImage at h ⊢
  cases hprepare : prepare parseURL c with
  | error e =>
      rw [hprepare] at h
      cases h
  | ok paths =>
      obtain ⟨partialPath, destination⟩ := paths
      rw [hprepare] at h
      dsimp only at h ⊢
      cases hdone : (resumeDownload sha256 c.fates (serve (c.web c.params.sourceURL))
          (files partialPath)).1 with
      | error e =>
          rw [hdone] at h
          cases h
      | ok d =>
          rw [hdone] at h
          dsimp only at h ⊢
          obtain ⟨hdownloads, object, hobject, hpart, hcontent, hsha, hfile⟩ :=
            resumeDownload_ok hdone
          obtain ⟨rfl, rfl, hconvert, hrename, hreturns, hplaced⟩ := place_ok h
          refine ⟨partialPath, _, ⟨hprepare, hdownloads, hconvert, hrename, hreturns⟩,
            object, hobject, hpart, hcontent, hsha, fun hraw => ?_⟩
          rw [hplaced hraw, Function.update_self, hfile]

theorem importImage_of_clear (h : Clear parseURL c partialPath destination)
    (hobject : c.web c.params.sourceURL = some object)
    (hpart : (files partialPath).getD [] = [] ∨
      ((files partialPath).getD []).length < object.length) :
    ∃ imported, (importImage sha256 parseURL c files).1 = .ok imported := by
  obtain ⟨d, hd⟩ : ∃ d, (resumeDownload sha256 c.fates (serve (some object))
      (files partialPath)).1 = .ok d := resumeDownload_of_downloads h.2.1 hpart
  unfold importImage
  rw [h.1, hobject]
  dsimp only
  rw [hd]
  exact place_of_clear h

end Call

/-- A call keeps what an import promises exactly if its partial file fits. -/
theorem promises_iff_fits {sha256 : Bytes → Bytes} {parseURL : String → Option Url} {c : Call}
    {files : Files} :
    Right sha256 parseURL files c ∧ Recovers sha256 parseURL files c ↔
      Fits parseURL files c := by
  constructor
  · rintro ⟨hright, hrecovers⟩ partialPath destination hclear object hobject part hpart
    obtain ⟨imported, himported⟩ := hrecovers partialPath destination hclear object hobject
    obtain ⟨partialPath', destination', hclear', object', hobject', hsmall, hcontent, -, -⟩ :=
      importImage_ok himported
    obtain ⟨rfl, rfl⟩ := Prod.mk.inj (Except.ok.inj (hclear.1.symm.trans hclear'.1))
    obtain rfl := Option.some.inj (hobject.symm.trans hobject')
    obtain ⟨object'', hobject'', hsame, -, -⟩ := hright imported himported
    obtain rfl := Option.some.inj (hobject.symm.trans hobject'')
    rw [hpart, Option.getD_some] at hsmall hcontent
    exact ⟨append_drop_eq_iff.mp (hcontent.symm.trans hsame), hsmall⟩
  · intro hfits
    constructor
    · intro imported himported
      obtain ⟨partialPath, destination, hclear, object, hobject, hsmall, hcontent, hsha, hplaced⟩ :=
        importImage_ok himported
      have hwhole : imported.downloaded.content = object := by
        rw [hcontent, append_drop_eq_iff]
        cases hpart : files partialPath with
        | none => exact List.nil_prefix
        | some part => exact (hfits partialPath destination hclear object hobject part hpart).1
      rw [hwhole] at hsha hplaced
      exact ⟨object, hobject, hwhole, hsha, hplaced⟩
    · intro partialPath destination hclear object hobject
      refine importImage_of_clear hclear hobject ?_
      cases hpart : files partialPath with
      | none => exact Or.inl rfl
      | some part => exact (hfits partialPath destination hclear object hobject part hpart).2

/-- In a sequence of calls every success is right and every call that nothing stops succeeds exactly
if at the start of every call that nothing stops its partial file is a first part of its object, and
not all of it. -/
theorem imports_promises_iff (sha256 : Bytes → Bytes) (parseURL : String → Option Url)
    (files : Files) (calls : List Call) :
    Admits (importStep sha256 parseURL)
        (fun files c => Right sha256 parseURL files c ∧ Recovers sha256 parseURL files c)
        files calls ↔
      Admits (importStep sha256 parseURL) (Fits parseURL) files calls :=
  admits_congr fun _ _ => promises_iff_fits

/-- A call with the id `base` in which only the copy and the conversion may fail. -/
def importing (url format : String) (object : Bytes) (copy : Option ℕ) (convert : Bool) : Call where
  cwd := []
  params := ⟨"base", url, ["images"], format, "base.raw", "/data"⟩
  web := fun u => if u = url then some object else none
  fates :=
    { now := 0, makeStorageRoot := true, makeImports := true, makeParent := true,
      openTarget := true, seek := true, buildRequest := true, request := true, truncate := true,
      rewindAfterReset := true, copy, rewind := true, checksum := true, convert,
      converted := none, rename := true, returns := true }

def onImages : String → Option Url := fun _ => some ⟨"https", "images"⟩

/-- The files after a call on an empty disk. -/
def after (c : Call) : Files := (importImage id onImages c fun _ => none).2

/-- After an interrupted import of one image the import of another one succeeds with a byte of the
first, and after an import whose conversion was interrupted the same import fails. -/
theorem partial_file_kept :
    (importImage id onImages (importing "https://images/b" "raw" [3, 4] none true)
        (after (importing "https://images/a" "raw" [1, 2] (some 1) true))).1 =
      .ok ⟨["data", "base.raw"], ["data", "base.raw"], ⟨[1, 4], "0104", true⟩⟩ ∧
    (importImage id onImages (importing "https://images/a" "qcow2" [1, 2] none true)
        (after (importing "https://images/a" "qcow2" [1, 2] none false))).1 =
      .error (.unexpectedStatus 416) := by
  decide +kernel

end PmxAgents.Storage.ImportImage

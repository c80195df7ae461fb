import Mathlib.Logic.Function.Basic
import PmxAgents.Backup.Sftp
import PmxAgents.Lib.FileSystem
import PmxAgents.Lib.Hex
import PmxAgents.Lib.Text

/-!
# Pulling an archive

`Runner.Pull` fetches an archive from one of three providers. If an encryption key is given, the
archive is fetched into a temporary file beside the destination and decrypted from there into the
destination, which is created or truncated after the header was read and written chunk by chunk.
The temporary file is removed when the call ends.

## Implementation notes

Files are kept by their paths, without links; that a directory stands in the way or is missing is
an operation that fails. `World` says how the operations of a call end and what the providers
deliver. The temporary file has a random name that is not taken; its removal is taken to succeed,
since nothing else depends on it. When the decryption starts, the fetched file has been written
completely, so that its content is one list of bytes; reading can fail behind any of them, and
writing a chunk can fail after any of its bytes.
-/

namespace PmxAgents.Backup.Sync

open Lib Lib.Cbor Lib.Checks Lib.FileSystem Lib.PathText Lib.Text Lib.PartialCopy

/-! ## The key -/

def base64Digit (c : UInt8) : Option ℕ :=
  if 0x41 ≤ c ∧ c ≤ 0x5a then some (c.toNat - 0x41)
  else if 0x61 ≤ c ∧ c ≤ 0x7a then some (c.toNat - 0x61 + 26)
  else if 0x30 ≤ c ∧ c ≤ 0x39 then some (c.toNat - 0x30 + 52)
  else if c = 0x2b then some 62
  else if c = 0x2f then some 63
  else none

/-- Groups of four digits; only the last may be padded. -/
def decodeQuanta : Bytes → Option Bytes
  | [] => some []
  | a :: b :: c :: d :: rest => do
      let a ← base64Digit a
      let b ← base64Digit b
      if c = 0x3d then
        if d = 0x3d ∧ rest = [] then some [UInt8.ofNat (a * 4 + b / 16)] else none
      else
        let c ← base64Digit c
        if d = 0x3d then
          if rest = [] then
            some [UInt8.ofNat (a * 4 + b / 16), UInt8.ofNat (b % 16 * 16 + c / 4)]
          else none
        else
          let d ← base64Digit d
          let bytes ← decodeQuanta rest
          some (UInt8.ofNat (a * 4 + b / 16) :: UInt8.ofNat (b % 16 * 16 + c / 4) ::
            UInt8.ofNat (c % 4 * 64 + d) :: bytes)
  | _ => none

/-- The standard encoding; line ends are passed over. -/
def decodeBase64 (s : Bytes) : Option Bytes :=
  decodeQuanta (s.filter fun c => c ≠ 0x0a ∧ c ≠ 0x0d)

/-- The key of a call, if one is given: 32 bytes in hexadecimal, in base64 or as they are. -/
def parseEncryptionKey (raw : String) : Option (Option Bytes) :=
  let trimmed := utf8 (trimSpace raw)
  let long := fun key : Bytes => key.length = keySize
  if trimmed = [] then some none
  else
    match (Hex.decodeString trimmed).toOption.filter long with
    | some key => some (some key)
    | none =>
        match (decodeBase64 trimmed).filter long with
        | some key => some (some key)
        | none => if long trimmed then some (some trimmed) else none

/-! ## The providers -/

/-- The files of the host by their paths. -/
abbrev Files := Path → Option Bytes

structure S3Params where
  localPath : String
  bucket : String
  key : String

/-- How a download from S3 goes: the object, and after how many bytes the download fails. -/
structure S3Answer where
  config : Bool
  makeDir : Bool
  create : Bool
  object : Bytes
  stops : Option ℕ

inductive S3Error where
  | localPathRequired
  | bucketAndKeyRequired
  | config
  | createDir
  | create
  | download
  deriving DecidableEq

/-- Fetch an object into a file, which is created anew; the number of bytes and the file. -/
def s3Pull (w : S3Answer) (p : S3Params) (file : Option Bytes) :
    Except S3Error ℕ × Option Bytes :=
  if Sftp.blank p.localPath then (.error .localPathRequired, file)
  else if Sftp.blank p.bucket || Sftp.blank p.key then (.error .bucketAndKeyRequired, file)
  else if !w.config then (.error .config, file)
  else if !w.makeDir then (.error .createDir, file)
  else if !w.create then (.error .create, file)
  else
    match w.stops with
    | none => (.ok w.object.length, some w.object)
    | some n => (.error .download, some (w.object.take n))

structure PbsParams where
  binary : String
  repository : String
  snapshot : String
  archiveName : String
  localPath : String
  (namespace' : String)
  fingerprint : String
  additionalArgs : List String

/-- A run of the backup client: what it leaves at the path it restores to. -/
structure PbsRun where
  starts : Bool
  leaves : Option Bytes
  succeeds : Bool

inductive PbsError where
  | repositoryRequired
  | paramsRequired
  | start (binary : String)
  | failed (binary : String) (args : List String)
  deriving DecidableEq

def PbsParams.program (p : PbsParams) : String :=
  if Sftp.blank p.binary then "/usr/bin/proxmox-backup-client" else trimSpace p.binary

def PbsParams.args (p : PbsParams) : List String :=
  ["restore", trimSpace p.snapshot, trimSpace p.archiveName, trimSpace p.localPath,
    "--repository", trimSpace p.repository] ++
  (if Sftp.blank p.namespace' then [] else ["--ns", trimSpace p.namespace']) ++
  (if Sftp.blank p.fingerprint then [] else ["--fingerprint", trimSpace p.fingerprint]) ++
  p.additionalArgs

/-- Restore an archive to a path with the backup client. -/
def pbsPull (run : String → List String → PbsRun) (p : PbsParams) (file : Option Bytes) :
    Except PbsError Unit × Option Bytes :=
  if Sftp.blank p.repository then (.error .repositoryRequired, file)
  else if Sftp.blank p.snapshot || Sftp.blank p.archiveName || Sftp.blank p.localPath then
    (.error .paramsRequired, file)
  else
    let r := run p.program p.args
    if !r.starts then (.error (.start p.program), file)
    else if !r.succeeds then (.error (.failed p.program p.args), r.leaves)
    else (.ok (), r.leaves)

/-! ## The call -/

structure PullParams where
  provider : String
  localPath : String
  encryptionKey : String
  s3 : S3Params
  sftp : Sftp.Params
  pbs : PbsParams

structure Result where
  provider : String
  bytesTransferred : ℕ
  encrypted : Bool
  deriving DecidableEq

/-- How reading the fetched file and writing the destination go. -/
structure Trouble where
  /-- Reading fails behind the last byte instead of ending there. -/
  read : Bool
  /-- After how many bytes the writing of a chunk fails. -/
  write : ℕ → Option ℕ

structure World where
  cwd : Path
  /-- The random part of the name of the temporary file; without one it cannot be made. -/
  random : Option String
  s3 : S3Answer
  sftp : Sftp.Fates
  remote : Bytes
  pbs : String → List String → PbsRun
  openSource : Bool
  makeOutputDir : Bool
  create : Bool
  trouble : Trouble

inductive DecryptFailure where
  | openSource
  | archive (e : DecryptError)
  | createOutputDir
  | create
  | readLengthPrefix
  | writeDestination
  deriving DecidableEq

inductive PullError where
  | providerRequired
  | localPathRequired
  | encryptionKey
  | createTemp
  | s3 (e : S3Error)
  | sftp (e : Sftp.TransferError)
  | pbs (e : PbsError)
  | unsupportedProvider (provider : String)
  | decrypt (e : DecryptFailure)
  deriving DecidableEq

/-- The first path that is given. -/
def PullParams.destination (p : PullParams) : String :=
  ([p.localPath, p.s3.localPath, p.sftp.localPath, p.pbs.localPath].map trimSpace).find? (· ≠ "")
    |>.getD ""

/-- The text of a path. -/
def pathText (path : Path) : String := "/" ++ "/".intercalate path

inductive Provider where
  | s3
  | sftp
  | pbs
  deriving DecidableEq

/-- The provider that a name selects. -/
def Provider.ofName (name : String) : Option Provider :=
  if name = "s3" then some .s3
  else if name = "sftp" then some .sftp
  else if name = "pbs" then some .pbs
  else none

/-- Fetch the archive into a file: the number of bytes or the error, and the file. -/
def download (w : World) (p : PullParams) (provider : String) (path : Path) (file : Option Bytes) :
    Except PullError ℕ × Option Bytes :=
  match Provider.ofName provider with
  | some .s3 =>
      let done := s3Pull w.s3 { p.s3 with localPath := pathText path } file
      (done.1.mapError .s3, done.2)
  | some .sftp =>
      let done := Sftp.pull w.sftp { p.sftp with localPath := pathText path } w.remote file
      ((done.1.mapError .sftp).map (·.bytesTransferred), done.2)
  | some .pbs =>
      let done := pbsPull w.pbs { p.pbs with localPath := pathText path } file
      ((done.1.mapError .pbs).map fun _ => (done.2.getD []).length, done.2)
  | none => (.error (.unsupportedProvider provider), file)

/-- The loop over the chunks: what reaches the destination, and the error it ends with. -/
def decryptInto (C : Cipher) (key baseNonce : Bytes) (t : Trouble) :
    ℕ → ℕ → Bytes → Bytes × Option DecryptFailure
  | 0, _, _ => ([], some .readLengthPrefix)
  | fuel + 1, chunkIndex, r =>
      match readFull 4 r with
      | .eof => ([], if t.read then some .readLengthPrefix else none)
      | .unexpectedEOF =>
          ([], some (if t.read then .readLengthPrefix else .archive .truncatedLengthPrefix))
      | .full plainLenPrefix r =>
          match readChunk C key baseNonce chunkIndex plainLenPrefix r with
          | .error err => ([], some (.archive err))
          | .ok (opened, r) =>
              match t.write chunkIndex with
              | some n => (opened.take n, some .writeDestination)
              | none =>
                  let rest := decryptInto C key baseNonce t fuel (chunkIndex + 1) r
                  (opened ++ rest.1, rest.2)

/-- Decrypt one file into another. -/
def decryptTo (C : Cipher) (w : World) (key : Bytes) (source destination : Path) (files : Files) :
    Option DecryptFailure × Files :=
  match files source with
  | none => (some .openSource, files)
  | some object =>
      if !w.openSource then (some .openSource, files)
      else
        match readHeader key object with
        | .error err => (some (.archive err), files)
        | .ok (baseNonce, r) =>
            if !w.makeOutputDir then (some .createOutputDir, files)
            else if !w.create then (some .create, files)
            else
              let written := decryptInto C key baseNonce w.trouble (r.length + 1) 0 r
              (written.2, Function.update files destination (some written.1))

/-- A new file beside the destination. -/
def createTemp (w : World) (destination : Path) (files : Files) : Option Path :=
  match w.random with
  | none => none
  | some random =>
      let tmp := destination.dropLast ++ [".pmx-backup-pull-" ++ random ++ ".enc"]
      if files tmp = none then some tmp else none

/-- The part of an encrypted call after the temporary file was made. -/
def fetchAndDecrypt (C : Cipher) (w : World) (p : PullParams) (provider : String) (key : Bytes)
    (tmp destination : Path) (files : Files) : Except PullError Result × Files :=
  let fetched := download w p provider tmp (some [])
  let files := Function.update files tmp fetched.2
  match fetched.1 with
  | .error e => (.error e, Function.update files tmp none)
  | .ok _ =>
      let done := decryptTo C w key tmp destination files
      match done.1 with
      | some e => (.error (.decrypt e), Function.update done.2 tmp none)
      | none =>
          (.ok ⟨provider, ((done.2 destination).getD []).length, true⟩,
            Function.update done.2 tmp none)

/-- `Runner.Pull`, and the files it leaves. -/
def pull (C : Cipher) (w : World) (p : PullParams) (files : Files) :
    Except PullError Result × Files :=
  let provider := Casing.toLower (trimSpace p.provider)
  let destination := resolve w.cwd p.destination
  if provider = "" then (.error .providerRequired, files)
  else if p.destination = "" then (.error .localPathRequired, files)
  else
    match parseEncryptionKey p.encryptionKey with
    | none => (.error .encryptionKey, files)
    | some none =>
        let fetched := download w p provider destination (files destination)
        (fetched.1.map fun n => ⟨provider, n, false⟩,
          Function.update files destination fetched.2)
    | some (some key) =>
        match createTemp w destination files with
        | none => (.error .createTemp, files)
        | some tmp => fetchAndDecrypt C w p provider key tmp destination files

/-! ## Where an archive stops -/

/-- The chunk at the front of the bytes opens. -/
def NextChunk (C : Cipher) (key baseNonce : Bytes) (i : ℕ) (r opened rest : Bytes) : Prop :=
  ∃ n sealed, 0 < n ∧ n ≤ maxChunk ∧ r = le32 n ++ sealed ++ rest ∧
    sealed.length = n + overhead ∧ C.openChunk key (chunkNonce baseNonce i) sealed = some opened

/-- The bytes `written` reach the destination before the decryption of `r` fails: in front of
something that is no chunk, or in a chunk that cannot be written. -/
inductive Stops (C : Cipher) (key baseNonce : Bytes) (t : Trouble) : ℕ → Bytes → Bytes → Prop where
  | broken {i : ℕ} {r : Bytes} (hrest : r ≠ [] ∨ t.read)
      (h : ∀ opened rest, ¬ NextChunk C key baseNonce i r opened rest) :
      Stops C key baseNonce t i r []
  | refused {i n : ℕ} {r opened rest : Bytes} (h : NextChunk C key baseNonce i r opened rest)
      (hwrite : t.write i = some n) : Stops C key baseNonce t i r (opened.take n)
  | next {i : ℕ} {r opened rest written : Bytes} (h : NextChunk C key baseNonce i r opened rest)
      (hwrite : t.write i = none) (hrest : Stops C key baseNonce t (i + 1) rest written) :
      Stops C key baseNonce t i r (opened ++ written)

section Decryption
variable {C : Cipher} {key baseNonce r opened rest written : Bytes} {t : Trouble} {fuel i : ℕ}
  {e : DecryptFailure}

theorem nextChunk_iff : NextChunk C key baseNonce i r opened rest ↔
    ∃ lenPrefix r', readFull 4 r = .full lenPrefix r' ∧
      readChunk C key baseNonce i lenPrefix r' = .ok (opened, rest) := by
  constructor
  · rintro ⟨n, sealed, hpos, hmax, rfl, hlen, hopen⟩
    have hn : ofLe32 (le32 n) = n := ofLe32_le32 (Nat.lt_of_le_of_lt hmax (by decide))
    refine ⟨le32 n, sealed ++ rest, readFull_eq_full.mpr ⟨List.append_assoc _ _ _, rfl⟩, ?_⟩
    refine readChunk_eq_ok.mpr ⟨sealed, ?_⟩
    rw [hn]
    exact ⟨hpos, hmax, rfl, hlen, hopen⟩
  · rintro ⟨lenPrefix, r', hfull, hread⟩
    obtain ⟨rfl, hfour⟩ := readFull_eq_full.mp hfull
    obtain ⟨sealed, hpos, hmax, rfl, hlen, hopen⟩ := readChunk_eq_ok.mp hread
    refine ⟨ofLe32 lenPrefix, sealed, hpos, hmax, ?_, hlen, hopen⟩
    rw [le32_ofLe32 hfour, List.append_assoc]

theorem not_nextChunk_of_readFull (h : ∀ lenPrefix r', readFull 4 r ≠ .full lenPrefix r') :
    ¬ NextChunk C key baseNonce i r opened rest := by
  rintro hnext
  obtain ⟨lenPrefix, r', hfull, -⟩ := nextChunk_iff.mp hnext
  exact h lenPrefix r' hfull

theorem length_lt_of_nextChunk (h : NextChunk C key baseNonce i r opened rest) :
    rest.length < r.length := by
  obtain ⟨n, sealed, -, -, rfl, -, -⟩ := h
  simp only [List.length_append, length_le32]
  omega

/-- A loop that fails has written what the archive gives up to where it stops. -/
theorem stops_of_decryptInto (hfuel : r.length < fuel)
    (h : decryptInto C key baseNonce t fuel i r = (written, some e)) :
    Stops C key baseNonce t i r written := by
  induction fuel generalizing i r written with
  | zero => exact absurd hfuel (Nat.not_lt_zero _)
  | succ fuel ih =>
      rw [decryptInto] at h
      cases hread : readFull 4 r with
      | eof =>
          rw [hread] at h
          obtain ⟨rfl, herr⟩ := Prod.mk.inj h
          refine .broken (Or.inr ?_) fun _ _ => not_nextChunk_of_readFull (by simp [hread])
          by_contra hread'
          rw [if_neg hread'] at herr
          cases herr
      | unexpectedEOF =>
          rw [hread] at h
          obtain ⟨rfl, -⟩ := Prod.mk.inj h
          refine .broken (Or.inl ?_) fun _ _ => not_nextChunk_of_readFull (by simp [hread])
          rintro rfl
          cases hread
      | full lenPrefix r' =>
          rw [hread] at h
          dsimp only at h
          cases hchunk : readChunk C key baseNonce i lenPrefix r' with
          | error err =>
              rw [hchunk] at h
              obtain ⟨rfl, -⟩ := Prod.mk.inj h
              refine .broken (Or.inl ?_) fun o q hnext => ?_
              · rintro rfl
                cases hread
              · obtain ⟨lenPrefix', r'', hfull, hok⟩ := nextChunk_iff.mp hnext
                obtain ⟨rfl, rfl⟩ := ReadFull.full.inj (hread.symm.trans hfull)
                rw [hchunk] at hok
                cases hok
          | ok chunk =>
              obtain ⟨o, q⟩ := chunk
              rw [hchunk] at h
              dsimp only at h
              have hnext : NextChunk C key baseNonce i r o q :=
                nextChunk_iff.mpr ⟨lenPrefix, r', hread, hchunk⟩
              cases hwrite : t.write i with
              | some n =>
                  rw [hwrite] at h
                  obtain ⟨rfl, -⟩ := Prod.mk.inj h
                  exact .refused hnext hwrite
              | none =>
                  rw [hwrite] at h
                  obtain ⟨rfl, herr⟩ := Prod.mk.inj h
                  have hlt := length_lt_of_nextChunk hnext
                  exact .next hnext hwrite (ih (by omega) (Prod.ext rfl herr))

theorem decryptInto_of_stops (h : Stops C key baseNonce t i r written) (hfuel : r.length < fuel) :
    ∃ e, decryptInto C key baseNonce t fuel i r = (written, some e) := by
  induction h generalizing fuel with
  | @broken i r hrest hnext =>
      obtain ⟨fuel, rfl⟩ : ∃ k, fuel = k + 1 := ⟨fuel - 1, by omega⟩
      rw [decryptInto]
      cases hread : readFull 4 r with
      | eof =>
          have hfails : t.read := by
            rcases hrest with hne | hfails
            · exact absurd (readFull_eq_eof hread) hne
            · exact hfails
          simp only [if_pos hfails]
          exact ⟨_, rfl⟩
      | unexpectedEOF => exact ⟨_, rfl⟩
      | full lenPrefix r' =>
          dsimp only
          cases hchunk : readChunk C key baseNonce i lenPrefix r' with
          | error err => exact ⟨_, rfl⟩
          | ok chunk =>
              obtain ⟨o, q⟩ := chunk
              exact absurd (nextChunk_iff.mpr ⟨lenPrefix, r', hread, hchunk⟩) (hnext o q)
  | refused hnext hwrite =>
      obtain ⟨fuel, rfl⟩ : ∃ k, fuel = k + 1 := ⟨fuel - 1, by omega⟩
      obtain ⟨lenPrefix, r', hread, hchunk⟩ := nextChunk_iff.mp hnext
      refine ⟨.writeDestination, ?_⟩
      rw [decryptInto, hread]
      simp only [hchunk, hwrite]
  | next hnext hwrite _ ih =>
      obtain ⟨fuel, rfl⟩ : ∃ k, fuel = k + 1 := ⟨fuel - 1, by omega⟩
      obtain ⟨lenPrefix, r', hread, hchunk⟩ := nextChunk_iff.mp hnext
      have hlt := length_lt_of_nextChunk hnext
      obtain ⟨e, he⟩ := ih (by omega : _ < fuel)
      refine ⟨e, ?_⟩
      rw [decryptInto, hread]
      simp only [hchunk, hwrite, he]

end Decryption

/-! ## What a call that fails leaves -/

/-- The provider delivers the object. -/
def Fetches (w : World) (p : PullParams) (provider : String) (path : Path) (object : Bytes) :
    Prop :=
  match Provider.ofName provider with
  | some .s3 =>
      Sftp.blank p.s3.bucket = false ∧ Sftp.blank p.s3.key = false ∧ w.s3.config ∧ w.s3.makeDir ∧
        w.s3.create ∧ w.s3.stops = none ∧ object = w.s3.object
  | some .sftp =>
      Sftp.Clear w.sftp { p.sftp with localPath := pathText path } ∧ object = w.remote
  | some .pbs =>
      let q := { p.pbs with localPath := pathText path }
      Sftp.blank q.repository = false ∧ Sftp.blank q.snapshot = false ∧
        Sftp.blank q.archiveName = false ∧ (w.pbs q.program q.args).starts ∧
        (w.pbs q.program q.args).succeeds ∧ (w.pbs q.program q.args).leaves = some object
  | none => False

/-- The object is an archive with a header, and it and the destination can be opened. -/
structure Opens (w : World) (object baseNonce chunks : Bytes) : Prop where
  openSource : w.openSource
  nonce : baseNonce.length = nonceSize
  header : ∃ size, 0 < size ∧ size ≤ maxChunk ∧ object = header baseNonce size ++ chunks
  makeOutputDir : w.makeOutputDir
  create : w.create

/-- The call gets so far that it creates the destination: it has a temporary file other than the
destination, and the provider delivers an archive. -/
def Creates (w : World) (p : PullParams) (provider : String) (files : Files)
    (baseNonce chunks : Bytes) : Prop :=
  p.destination ≠ "" ∧ ∃ tmp, createTemp w (resolve w.cwd p.destination) files = some tmp ∧
    tmp ≠ resolve w.cwd p.destination ∧
    ∃ object, Fetches w p provider tmp object ∧ Opens w object baseNonce chunks

/-- The call does not get so far that it creates the destination. Or the archive stops, and the
destination has held exactly the plaintext in front of that place. -/
def Spared (C : Cipher) (w : World) (p : PullParams) (key : Bytes) (files : Files) : Prop :=
  let provider := Casing.toLower (trimSpace p.provider)
  (¬ ∃ baseNonce chunks, Creates w p provider files baseNonce chunks) ∨
    ∀ baseNonce chunks written, Creates w p provider files baseNonce chunks →
      Stops C key baseNonce w.trouble 0 chunks written →
      files (resolve w.cwd p.destination) = some written

section Call
variable {C : Cipher} {w : World} {p : PullParams} {provider : String} {key object : Bytes}
  {files : Files} {tmp destination path : Path}

theorem creates_imp_iff :
    ((¬ ∃ baseNonce chunks, Creates w p provider files baseNonce chunks) ∨
      ∀ baseNonce chunks written, Creates w p provider files baseNonce chunks →
        Stops C key baseNonce w.trouble 0 chunks written →
        files (resolve w.cwd p.destination) = some written) ↔
    (p.destination ≠ "" → ∀ tmp, createTemp w (resolve w.cwd p.destination) files = some tmp →
      tmp ≠ resolve w.cwd p.destination → ∀ object, Fetches w p provider tmp object →
      ∀ baseNonce chunks written, Opens w object baseNonce chunks →
        Stops C key baseNonce w.trouble 0 chunks written →
        files (resolve w.cwd p.destination) = some written) := by
  constructor
  · intro h hdestination tmp htmp hne object hfetches baseNonce chunks written hopens hstops
    have hcreates : Creates w p provider files baseNonce chunks :=
      ⟨hdestination, tmp, htmp, hne, object, hfetches, hopens⟩
    rcases h with hnever | hheld
    · exact absurd ⟨baseNonce, chunks, hcreates⟩ hnever
    · exact hheld baseNonce chunks written hcreates hstops
  · intro h
    refine Or.inr fun baseNonce chunks written hcreates hstops => ?_
    obtain ⟨hdestination, tmp, htmp, hne, object, hfetches, hopens⟩ := hcreates
    exact h hdestination tmp htmp hne object hfetches baseNonce chunks written hopens hstops

theorem length_of_parseEncryptionKey {raw : String} (h : parseEncryptionKey raw = some (some key)) :
    key.length = keySize := by
  unfold parseEncryptionKey at h
  dsimp only at h
  by_cases hempty : utf8 (trimSpace raw) = []
  · rw [if_pos hempty] at h
    cases h
  · rw [if_neg hempty] at h
    split at h
    · rename_i k hhex
      obtain rfl : k = key := by simpa using h
      simpa using (Option.filter_eq_some_iff.mp hhex).2
    · split at h
      · rename_i k hbase
        obtain rfl : k = key := by simpa using h
        simpa using (Option.filter_eq_some_iff.mp hbase).2
      · split_ifs at h with hraw
        obtain rfl : _ = key := by simpa using h
        exact hraw

theorem blank_pathText : Sftp.blank (pathText path) = false := by
  have hslash : '/' ∈ ((pathText path).toList.dropWhile isSpace).reverse := by
    simp [pathText, show isSpace '/' = false from rfl]
  have hne : trim (pathText path).toList ≠ [] := by
    rw [trim, ne_eq, List.reverse_eq_nil_iff, List.dropWhile_eq_nil_iff]
    intro hall
    exact absurd (hall '/' hslash) (by decide)
  rw [Sftp.blank, decide_eq_false_iff_not]
  intro hblank
  rw [trimSpace] at hblank
  exact hne (by simpa using congrArg String.toList hblank)

theorem s3Pull_ok_iff {a : S3Answer} {q : S3Params} {file : Option Bytes}
    (hpath : q.localPath = pathText path) :
    (∃ n, (s3Pull a q file).1 = .ok n) ∧ (s3Pull a q file).2 = some object ↔
      Sftp.blank q.bucket = false ∧ Sftp.blank q.key = false ∧ a.config ∧ a.makeDir ∧ a.create ∧
        a.stops = none ∧ object = a.object := by
  unfold s3Pull
  simp only [hpath, blank_pathText]
  cases Sftp.blank q.bucket <;> cases Sftp.blank q.key <;> cases a.config <;> cases a.makeDir <;>
    cases a.create <;> cases a.stops <;> simp [eq_comm]

theorem sftpPull_ok_iff {f : Sftp.Fates} {q : Sftp.Params} {source : Bytes} :
    (∃ r, (Sftp.pull f q source (some [])).1 = .ok r) ∧
        (Sftp.pull f q source (some [])).2 = some object ↔
      Sftp.Clear f q ∧ object = source := by
  have hzero : Sftp.startOffset f q source (some []) = .ok 0 := by
    by_cases hsees : q.resume ∧ f.statTarget
    · exact (Sftp.startOffset_of_sees hsees.1 hsees.2).mpr ⟨Nat.zero_le _, rfl⟩
    · exact Sftp.startOffset_of_blind hsees
  constructor
  · rintro ⟨⟨r, hr⟩, hobject⟩
    obtain ⟨hclear, k, hoff, -, hcontent⟩ := Sftp.pull_ok hr
    obtain rfl : 0 = k := Except.ok.inj (hzero.symm.trans hoff)
    rw [hobject, if_neg (Nat.lt_irrefl 0), List.drop_zero, writeAt_nil] at hcontent
    exact ⟨hclear, Option.some.inj hcontent⟩
  · rintro ⟨hclear, rfl⟩
    have hpull := Sftp.pull_of_clear hclear hzero fun hk => absurd hk (Nat.lt_irrefl 0)
    rw [hpull, if_neg (Nat.lt_irrefl 0), List.drop_zero, writeAt_nil]
    exact ⟨⟨_, rfl⟩, rfl⟩

theorem pbsPull_ok_iff {run : String → List String → PbsRun} {q : PbsParams} (file : Option Bytes)
    (hpath : q.localPath = pathText path) :
    (pbsPull run q file).1 = .ok () ∧ (pbsPull run q file).2 = some object ↔
      Sftp.blank q.repository = false ∧ Sftp.blank q.snapshot = false ∧
        Sftp.blank q.archiveName = false ∧ (run q.program q.args).starts ∧
        (run q.program q.args).succeeds ∧ (run q.program q.args).leaves = some object := by
  unfold pbsPull
  simp only [hpath, blank_pathText, Bool.or_false]
  cases Sftp.blank q.repository <;> cases Sftp.blank q.snapshot <;>
    cases Sftp.blank q.archiveName <;> cases (run q.program q.args).starts <;>
    cases (run q.program q.args).succeeds <;> simp

theorem download_ok_iff : (∃ n, (download w p provider path (some [])).1 = .ok n) ∧
    (download w p provider path (some [])).2 = some object ↔ Fetches w p provider path object := by
  unfold download Fetches
  cases hprovider : Provider.ofName provider with
  | none => simp
  | some known =>
      cases known with
      | s3 =>
          simp only [mapError_eq_ok]
          exact s3Pull_ok_iff rfl
      | sftp =>
          simp only [map_eq_ok, mapError_eq_ok]
          rw [← sftpPull_ok_iff]
          refine and_congr_left fun _ => ⟨?_, ?_⟩
          · rintro ⟨_, r, hr, -⟩
            exact ⟨r, hr⟩
          · rintro ⟨r, hr⟩
            exact ⟨_, r, hr, rfl⟩
      | pbs =>
          simp only [map_eq_ok, mapError_eq_ok]
          refine Iff.trans (and_congr_left fun _ => ⟨?_, ?_⟩) (pbsPull_ok_iff (some []) rfl)
          · rintro ⟨_, _, h, -⟩
            exact h
          · exact fun h => ⟨_, (), h, rfl⟩

theorem not_fetches_empty : ¬ Fetches w p "" path object := by
  have hname : Provider.ofName "" = none := by decide
  unfold Fetches
  rw [hname]
  exact id

/-- A decryption that fails leaves every other file, and the destination as it was exactly if it
does not get to it or the archive stops behind what the destination holds. -/
theorem decryptTo_destination (hkey : key.length = keySize) {e : DecryptFailure}
    (hsource : files tmp = some object)
    (herr : (decryptTo C w key tmp destination files).1 = some e) :
    (decryptTo C w key tmp destination files).2 destination = files destination ↔
      ∀ baseNonce chunks written, Opens w object baseNonce chunks →
        Stops C key baseNonce w.trouble 0 chunks written → files destination = some written := by
  unfold decryptTo at herr ⊢
  rw [hsource] at herr ⊢
  dsimp only at herr ⊢
  by_cases hopen : w.openSource = true
  · have hnot : ¬ (!w.openSource) = true := by simp [hopen]
    rw [if_neg hnot] at herr ⊢
    cases hheader : readHeader key object with
    | error err =>
        refine iff_of_true rfl fun baseNonce chunks _ hopens => ?_
        have hok := readHeader_eq_ok.mpr ⟨hkey, hopens.nonce, hopens.header⟩
        rw [hheader] at hok
        cases hok
    | ok head =>
        obtain ⟨baseNonce, r⟩ := head
        rw [hheader] at herr
        dsimp only at herr ⊢
        by_cases hdir : w.makeOutputDir = true
        · rw [if_neg (by simp [hdir])] at herr ⊢
          by_cases hcreate : w.create = true
          · rw [if_neg (by simp [hcreate])] at herr ⊢
            generalize hdone : decryptInto C key baseNonce w.trouble (r.length + 1) 0 r = done
              at herr ⊢
            obtain ⟨written, err⟩ := done
            obtain rfl : err = some e := herr
            dsimp only
            rw [Function.update_self]
            constructor
            · intro hsame nonce chunks written' hopens hstops
              -- the header and what is behind it are those that were read
              have hok := readHeader_eq_ok.mpr ⟨hkey, hopens.nonce, hopens.header⟩
              obtain ⟨rfl, rfl⟩ := Prod.mk.inj (Except.ok.inj (hok.symm.trans hheader))
              obtain ⟨e', he'⟩ := decryptInto_of_stops hstops (Nat.lt_succ_self _)
              rw [← hsame, ← (Prod.mk.inj (hdone.symm.trans he')).1]
            · intro h
              obtain ⟨-, hnonce, hsize⟩ := readHeader_eq_ok.mp hheader
              exact (h baseNonce r written ⟨hopen, hnonce, hsize, hdir, hcreate⟩
                (stops_of_decryptInto (Nat.lt_succ_self _) hdone)).symm
          · rw [if_pos (by simpa using hcreate)]
            exact iff_of_true rfl fun _ _ _ hopens => absurd hopens.create hcreate
        · rw [if_pos (by simpa using hdir)]
          exact iff_of_true rfl fun _ _ _ hopens => absurd hopens.makeOutputDir hdir
  · have hclosed : (!w.openSource) = true := by simpa using hopen
    rw [if_pos hclosed]
    exact iff_of_true rfl fun _ _ _ hopens => absurd hopens.openSource hopen

theorem createTemp_free (h : createTemp w destination files = some tmp) : files tmp = none := by
  unfold createTemp at h
  split at h
  · cases h
  · dsimp only at h
    split_ifs at h with hfree
    rw [← Option.some.inj h]
    exact hfree

/-- A call that fails with the temporary file made. -/
theorem fetchAndDecrypt_destination (hkey : key.length = keySize) {e : PullError}
    (htmp : createTemp w destination files = some tmp)
    (herr : (fetchAndDecrypt C w p provider key tmp destination files).1 = .error e) :
    (fetchAndDecrypt C w p provider key tmp destination files).2 destination = files destination ↔
      (tmp ≠ destination → ∀ object, Fetches w p provider tmp object →
        ∀ baseNonce chunks written, Opens w object baseNonce chunks →
        Stops C key baseNonce w.trouble 0 chunks written → files destination = some written) := by
  by_cases hne : tmp = destination
  · -- the temporary file is gone, and was not there before
    subst hne
    refine iff_of_true ?_ fun h => absurd rfl h
    rw [createTemp_free htmp]
    unfold fetchAndDecrypt
    dsimp only
    split
    · exact Function.update_self _ _ _
    · split <;> exact Function.update_self _ _ _
  · have hdest : destination ≠ tmp := fun h => hne h.symm
    unfold fetchAndDecrypt at herr ⊢
    dsimp only at herr ⊢
    cases hfetch : (download w p provider tmp (some [])).1 with
    | error err =>
        simp only [Function.update_of_ne hdest, true_iff]
        intro _ object hfetches
        obtain ⟨⟨n, hn⟩, -⟩ := download_ok_iff.mpr hfetches
        rw [hfetch] at hn
        cases hn
    | ok n =>
        rw [hfetch] at herr
        dsimp only at herr ⊢
        have hkept : Function.update files tmp (download w p provider tmp (some [])).2 destination =
            files destination := Function.update_of_ne hdest _ _
        have htmp₁ : Function.update files tmp (download w p provider tmp (some [])).2 tmp =
            (download w p provider tmp (some [])).2 := Function.update_self _ _ _
        generalize Function.update files tmp (download w p provider tmp (some [])).2 = files₁
          at herr hkept htmp₁ ⊢
        cases hdone : (decryptTo C w key tmp destination files₁).1 with
        | none =>
            rw [hdone] at herr
            cases herr
        | some err =>
            dsimp only
            rw [Function.update_of_ne hdest, ← hkept]
            cases hobject : (download w p provider tmp (some [])).2 with
            | none =>
                refine iff_of_true ?_ fun _ object hfetches => ?_
                · rw [decryptTo, htmp₁, hobject]
                · obtain ⟨-, hsome⟩ := download_ok_iff.mpr hfetches
                  rw [hobject] at hsome
                  cases hsome
            | some object =>
                rw [decryptTo_destination hkey (htmp₁.trans hobject) hdone]
                constructor
                · intro h _ object' hfetches
                  obtain ⟨-, hsome⟩ := download_ok_iff.mpr hfetches
                  obtain rfl := Option.some.inj (hobject.symm.trans hsome)
                  exact h
                · exact fun h => h hne object (download_ok_iff.mp ⟨⟨n, hfetch⟩, hobject⟩)

/-- A call that fails leaves the destination as it was exactly if it does not get to it or the
archive stops behind what the destination holds. -/
theorem pull_error_destination {e : PullError}
    (hkey : parseEncryptionKey p.encryptionKey = some (some key))
    (herr : (pull C w p files).1 = .error e) :
    (pull C w p files).2 (resolve w.cwd p.destination) = files (resolve w.cwd p.destination) ↔
      Spared C w p key files := by
  unfold pull at herr ⊢
  unfold Spared
  rw [hkey] at herr ⊢
  dsimp only at herr ⊢
  generalize Casing.toLower (trimSpace p.provider) = provider at herr ⊢
  rw [creates_imp_iff]
  by_cases hprovider : provider = ""
  · rw [if_pos hprovider]
    refine iff_of_true rfl fun _ tmp _ _ object hfetches => ?_
    rw [hprovider] at hfetches
    exact absurd hfetches not_fetches_empty
  · rw [if_neg hprovider] at herr ⊢
    by_cases hdestination : p.destination = ""
    · rw [if_pos hdestination]
      exact iff_of_true rfl fun h => absurd hdestination h
    · rw [if_neg hdestination] at herr ⊢
      cases htmp : createTemp w (resolve w.cwd p.destination) files with
      | none =>
          refine iff_of_true rfl fun _ _ h => ?_
          cases h
      | some tmp =>
          rw [htmp] at herr
          dsimp only at herr ⊢
          rw [fetchAndDecrypt_destination (length_of_parseEncryptionKey hkey) htmp herr]
          constructor
          · intro h _ tmp' htmp'
            obtain rfl := Option.some.inj htmp'
            exact h
          · exact fun h => h hdestination tmp rfl

end Call

/-- The call fetches an object of a bucket over an archive that is there. -/
def restoreParams : PullParams where
  provider := "s3"
  localPath := "/dump/a.vma"
  encryptionKey := "0123456789abcdefghijklmnopqrstuv"
  s3 := ⟨"", "backups", "a.vma"⟩
  sftp := ⟨"", "", Sftp.account, false⟩
  pbs := ⟨"", "", "", "", "", "", "", []⟩

def restoreKey : Bytes := utf8 "0123456789abcdefghijklmnopqrstuv"

/-- Every operation succeeds, and the bucket holds the object. -/
def serving (object : Bytes) : World where
  cwd := []
  random := some "1"
  s3 := ⟨true, true, true, object, none⟩
  sftp := ⟨Sftp.reachable, true, true, true, true, true, true, true, none⟩
  remote := []
  pbs := fun _ _ => ⟨true, none, true⟩
  openSource := true
  makeOutputDir := true
  create := true
  trouble := ⟨false, fun _ => none⟩

def earlierArchive : Files := fun path => if path = ["dump", "a.vma"] then some [9] else none

theorem pull_error_destination_noArchive :
    parseEncryptionKey restoreParams.encryptionKey = some (some restoreKey) ∧
      (pull plainCipher (serving []) restoreParams earlierArchive).1 =
        .error (.decrypt (.archive .readMagic)) ∧
      ((pull plainCipher (serving []) restoreParams earlierArchive).2
          (resolve [] restoreParams.destination) =
          earlierArchive (resolve [] restoreParams.destination) ↔
        Spared plainCipher (serving []) restoreParams restoreKey earlierArchive) := by
  have hkey : parseEncryptionKey restoreParams.encryptionKey = some (some restoreKey) := by
    decide
  have herr : (pull plainCipher (serving []) restoreParams earlierArchive).1 =
      .error (.decrypt (.archive .readMagic)) := by
    decide
  exact ⟨hkey, herr, pull_error_destination hkey herr⟩

/-- An archive of one chunk that is cut off in the next length. -/
def cutArchive : Bytes :=
  header (List.replicate 12 1) chunkSize ++
    writeChunk plainCipher restoreKey (chunkNonce (List.replicate 12 1) 0, [65]) ++ [1]

/-- The call fails, and the archive that was there is replaced by the first chunk. -/
theorem cutArchive_overwrites :
    (pull plainCipher (serving cutArchive) restoreParams earlierArchive).1 =
        .error (.decrypt (.archive .truncatedLengthPrefix)) ∧
      earlierArchive (resolve [] restoreParams.destination) = some [9] ∧
      (pull plainCipher (serving cutArchive) restoreParams earlierArchive).2
        (resolve [] restoreParams.destination) = some [65] := by
  decide

end PmxAgents.Backup.Sync

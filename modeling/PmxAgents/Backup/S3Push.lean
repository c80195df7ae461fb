import Mathlib.Data.List.Sort
import Mathlib.Logic.Function.Basic
import PmxAgents.Backup.Encryption
import PmxAgents.Lib.FileSystem
import PmxAgents.Lib.Runs
import PmxAgents.Lib.Slices

/-!
# Multipart uploads that resume

A push to S3 writes the id of its multipart upload to a state file next to the
archive. A later push of the same job finds the file, asks S3 for the parts it has
and sends the missing ones only. A part counts as present when its size fits; its
content is not looked at. Whether a completed object is the file of the attempt
that completed it therefore depends on the parts left by earlier attempts.

## Implementation notes

An attempt is a function of the state it finds and of its fates: for every
operation, whether it takes effect and whether the attempt goes on. An interrupted
attempt is one whose fates end it, with or without the effect of the operation it
ended in. A reported failure has the same effect on the state as an interruption.

S3 keeps the parts of an upload under its id, hands out every id once and without
white space around it, and on completion joins the listed parts in their order.
-/

namespace PmxAgents.Backup

open Lib Lib.Cbor Lib.FileSystem Lib.Slices Lib.Text

/-! ## The state of a push -/

structure UploadState where
  bucket : String
  key : String
  uploadID : String
  deriving DecidableEq

/-- What stands at the path of a state file. -/
inductive StateFile where
  | absent
  | unreadable
  | corrupt
  | state (s : UploadState)
  deriving DecidableEq

structure Part where
  etag : String
  content : Bytes
  deriving DecidableEq

structure Upload where
  bucket : String
  key : String
  parts : ℕ → Option Part

/-- What S3 knows under an upload id. -/
inductive Slot where
  | unused
  | opened (u : Upload)
  | closed

structure World where
  uploads : String → Slot
  objects : String × String → Option Bytes
  stateFiles : Path → StateFile

/-- A call of the command: the job, the archive and its content, the object to write, and with
encryption the key, the random nonce of this call and the pieces the content is read in. -/
structure Attempt where
  jobID : String
  localPath : Path
  bucket : String
  key : String
  source : Bytes
  encryption : Option (Bytes × Bytes × List Bytes)

/-- The bytes of the file that is uploaded. -/
def Attempt.bytes (C : Sync.Cipher) (a : Attempt) : Bytes :=
  match a.encryption with
  | none => a.source
  | some (key, baseNonce, reads) => Sync.encrypted C key baseNonce reads

/-! ## Fates -/

inductive CreateFate where
  | refused
  | lost (id : String)
  | done (id : String)

inductive SaveFate where
  | notWritten
  | torn
  | lost
  | done

inductive PartFate where
  | refused
  | lost (etag : String)
  | done (etag : String)

inductive CompleteFate where
  | refused
  | lost
  | done

/-- What happens to the operations of an attempt. A lost operation takes effect, and the
attempt ends before it sees the answer. -/
structure Fates where
  openFile : Bool
  create : CreateFate
  save : SaveFate
  list : Bool
  part : ℕ → PartFate
  complete : CompleteFate
  removeState : Bool
  returns : Bool

/-! ## S3 -/

namespace World

def createMultipartUpload (w : World) (bucket key id : String) : Option World :=
  match w.uploads id with
  | .unused =>
      if trimSpace id = id then
        some { w with
          uploads := Function.update w.uploads id (.opened ⟨bucket, key, fun _ => none⟩) }
      else none
  | _ => none

/-- The open upload of an object. -/
def upload (w : World) (bucket key id : String) : Option Upload :=
  match w.uploads id with
  | .opened u => if u.bucket = bucket ∧ u.key = key then some u else none
  | _ => none

def uploadPart (w : World) (bucket key id : String) (n : ℕ) (part : Part) : Option World :=
  (w.upload bucket key id).map fun u =>
    { w with
      uploads := Function.update w.uploads id
        (.opened { u with parts := Function.update u.parts n (some part) }) }

end World

/-- The contents of the listed parts, each named by its number and tag. -/
def Upload.assemble (u : Upload) : List (ℕ × String) → Option (List Bytes)
  | [] => some []
  | (n, etag) :: rest =>
      match u.parts n, u.assemble rest with
      | some part, some contents =>
          if trimSpace part.etag = trimSpace etag then some (part.content :: contents) else none
      | _, _ => none

def World.completeMultipartUpload (w : World) (bucket key id : String)
    (completed : List (ℕ × String)) : Option World :=
  match w.upload bucket key id with
  | none => none
  | some u =>
      (u.assemble completed).map fun contents =>
        { w with
          uploads := Function.update w.uploads id .closed
          objects := Function.update w.objects (bucket, key) (some contents.flatten) }

/-! ## The push -/

def multipartPartSize : ℕ := 8 * 1024 * 1024

def isSafeNameChar (c : Char) : Bool := c.isAlphanum || c == '.' || c == '_' || c == '-'

/-- Runs of other characters become one underscore. -/
def safeName (inRun : Bool) : List Char → List Char
  | [] => []
  | c :: rest =>
      if isSafeNameChar c then c :: safeName false rest
      else if inRun then safeName true rest
      else '_' :: safeName true rest

def uploadStatePath (localPath : Path) (jobID : String) : Option Path :=
  if trimSpace jobID = "" then none
  else
    some (localPath.dropLast ++ [".pmx-s3-upload-" ++
      String.ofList (safeName false (trimSpace jobID).toList) ++ ".json"])

def Attempt.statePath (a : Attempt) : Option Path := uploadStatePath a.localPath a.jobID

def loadUploadState (w : World) : Option Path → Option UploadState
  | none => some ⟨"", "", ""⟩
  | some path =>
      match w.stateFiles path with
      | .absent => some ⟨"", "", ""⟩
      | .unreadable => none
      | .corrupt => none
      | .state s => some s

/-- The upload to resume, if the state is about the same object. -/
def UploadState.resumes (s : UploadState) (a : Attempt) : Option String :=
  if s.bucket = trimSpace a.bucket ∧ s.key = trimSpace a.key ∧ s.uploadID ≠ "" then some s.uploadID
  else none

def World.setStateFile (w : World) (path : Path) (f : StateFile) : World :=
  { w with stateFiles := Function.update w.stateFiles path f }

def saveUploadState (fate : SaveFate) (w : World) (s : UploadState) : Option Path → World × Bool
  | none => (w, true)
  | some path =>
      match fate with
      | .notWritten => (w, false)
      | .torn => (w.setStateFile path .corrupt, false)
      | .lost => (w.setStateFile path (.state s), false)
      | .done => (w.setStateFile path (.state s), true)

/-- Resume the upload of the state file, or create one and write the state file. -/
def obtainUpload (f : Fates) (w : World) (a : Attempt) : World × Option String :=
  match loadUploadState w a.statePath with
  | none => (w, none)
  | some state =>
      match state.resumes a with
      | some id => (w, some id)
      | none =>
          match f.create with
          | .refused => (w, none)
          | .lost id => ((w.createMultipartUpload a.bucket a.key id).getD w, none)
          | .done id =>
              match w.createMultipartUpload a.bucket a.key id with
              | none => (w, none)
              | some w' =>
                  if trimSpace id = "" then (w', none)
                  else
                    match saveUploadState f.save w'
                      ⟨trimSpace a.bucket, trimSpace a.key, trimSpace id⟩ a.statePath with
                    | (w'', true) => (w'', some (trimSpace id))
                    | (w'', false) => (w'', none)

/-- The parts S3 lists, as far as they have a tag. -/
def listCompletedParts (u : Upload) (n : ℕ) : Option Part :=
  match u.parts n with
  | none => none
  | some part =>
      if 0 < n ∧ trimSpace part.etag ≠ "" then some ⟨trimSpace part.etag, part.content⟩ else none

/-- A listed part is reused when its size fits. -/
def reused (existing : ℕ → Option Part) (n : ℕ) (slice : Bytes) : Option Part :=
  (existing n).filter fun part => part.content.length = slice.length

/-- The loop over the parts of the file. -/
def uploadParts (f : Fates) (a : Attempt) (id : String) (existing : ℕ → Option Part) :
    List (ℕ × Bytes) → List (ℕ × String) → World → World × Option (List (ℕ × String))
  | [], completed, w => (w, some completed)
  | (n, slice) :: rest, completed, w =>
      match reused existing n slice with
      | some part => uploadParts f a id existing rest (completed ++ [(n, part.etag)]) w
      | none =>
          match f.part n with
          | .refused => (w, none)
          | .lost etag => ((w.uploadPart a.bucket a.key id n ⟨etag, slice⟩).getD w, none)
          | .done etag =>
              match w.uploadPart a.bucket a.key id n ⟨etag, slice⟩ with
              | none => (w, none)
              | some w' =>
                  if trimSpace etag = "" then (w', none)
                  else uploadParts f a id existing rest (completed ++ [(n, etag)]) w'

def removeStateFile (f : Fates) (w : World) : Option Path → World
  | none => w
  | some path => if f.removeState then w.setStateFile path .absent else w

/-- Complete the upload and forget its state file. -/
def finishUpload (f : Fates) (w : World) (a : Attempt) (id : String)
    (completed : List (ℕ × String)) : World × Bool :=
  let sorted := completed.insertionSort fun x y => x.1 ≤ y.1
  match f.complete with
  | .refused => (w, false)
  | .lost => ((w.completeMultipartUpload a.bucket a.key id sorted).getD w, false)
  | .done =>
      match w.completeMultipartUpload a.bucket a.key id sorted with
      | none => (w, false)
      | some w' => (removeStateFile f w' a.statePath, f.returns)

def multipartPush (f : Fates) (w : World) (a : Attempt) (bytes : Bytes) : World × Bool :=
  match obtainUpload f w a with
  | (w₁, none) => (w₁, false)
  | (w₁, some id) =>
      match w₁.upload a.bucket a.key id with
      | none => (w₁, false)
      | some u =>
          if f.list = false then (w₁, false)
          else
            match uploadParts f a id (listCompletedParts u)
                (slices multipartPartSize bytes) [] w₁ with
            | (w₂, none) => (w₂, false)
            | (w₂, some completed) => finishUpload f w₂ a id completed

/-- One attempt: the state after it and whether it returned success. -/
def push (C : Sync.Cipher) (f : Fates) (w : World) (a : Attempt) : World × Bool :=
  if f.openFile = false ∨ trimSpace a.bucket = "" ∨ trimSpace a.key = "" then (w, false)
  else multipartPush f w a (a.bytes C)

end PmxAgents.Backup

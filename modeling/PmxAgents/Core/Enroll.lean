import PmxAgents.Lib.Attempts

/-!
# Enrolment

`pmx-core enroll` makes a key, has the backend issue a certificate for it and stores the two
as `client.crt` and `client.key`. Each of them is written to a temporary file that is renamed,
the certificate first; if the key cannot be written the certificate is removed again. A run
that finds a certificate refuses.

An attempt may be cut off after any of its steps. The certificate directory is then what the
next attempt finds.

## Implementation notes

Keys are of any type. What the x509 and http packages make of a key and an address is a
parameter, and so is the key that a certificate was issued for. The directory has the two
files and the temporary file of the write that is under way; temporary files that earlier
attempts have left have other names and are not looked at by anything.
-/

namespace PmxAgents.Core.Enroll

open Lib Lib.Dialogue

/-- The certificate directory is a clean absolute path, as its components. -/
structure Config where
  enrollURL : String
  certDir : List String
  token : String

inductive File where
  | cert
  | key
  deriving DecidableEq, Repr

def display (path : List String) : String := "/" ++ "/".intercalate path

def File.name : File → String
  | .cert => "client.crt"
  | .key => "client.key"

def Config.path (cfg : Config) (file : File) : String := display (cfg.certDir ++ [file.name])

/-- What is sent to the backend; the capability is the host's own description. -/
structure EnrollRequest where
  csr : String
  token : String
  capability : String
  deriving DecidableEq, Repr

/-- A reply over HTTP, with the fields of its body as far as the decoder has read them. -/
structure Response where
  statusCode : Nat
  certificate : String
  error : String
  decodeError : Option String

inductive EnrollError where
  | tokenRequired
  | urlRequired
  | certExists (path : String)
  | generateKeypair (err : String)
  | createCSR (err : String)
  | marshalRequest (err : String)
  | buildRequest (err : String)
  | post (url err : String)
  | backend (msg : String)
  | decodeResponse (err : String)
  | emptyCertificate
  | mkdir (dir err : String)
  | writeCert (err : String)
  | marshalKey (err : String)
  | writeKey (err : String)
  deriving DecidableEq, Repr

def EnrollError.message : EnrollError → String
  | .tokenRequired => "enroll: token is required"
  | .urlRequired => "enroll: enroll URL is required"
  | .certExists path => "enroll: cert already exists at " ++ path ++ "; use --force to re-enroll"
  | .generateKeypair err => "enroll: generate keypair: " ++ err
  | .createCSR err => "enroll: create CSR: " ++ err
  | .marshalRequest err => "enroll: marshal request: " ++ err
  | .buildRequest err => "enroll: build request: " ++ err
  | .post url err => "enroll: POST " ++ url ++ ": " ++ err
  | .backend msg => "enroll: backend error: " ++ msg
  | .decodeResponse err => "enroll: decode response: " ++ err
  | .emptyCertificate => "enroll: backend returned empty certificate"
  | .mkdir dir err => "enroll: mkdir " ++ dir ++ ": " ++ err
  | .writeCert err => "enroll: write cert: " ++ err
  | .marshalKey err => "enroll: marshal private key: " ++ err
  | .writeKey err => "enroll: write key: " ++ err

/-- The library functions that are applied to keys, certificates and addresses. -/
structure Libraries (K : Type) where
  createCSR : K → String → Except String String
  marshalRequest : EnrollRequest → Except String String
  newRequest : String → Except String Unit
  marshalPKCS8 : K → Except String String
  issuedFor : String → Option K

/-- What a run asks of the system. -/
inductive Query (K : Type) where
  | stat (file : File)
  | generateKey
  | collect
  | post (url body : String)
  | mkdirAll (mode : Nat)
  | createTemp
  | write (data : String)
  | chmod (mode : Nat)
  | close
  | rename (file : File)
  | removeTemp
  | remove (file : File)
  deriving DecidableEq, Repr

inductive Reply (K : Type) where
  | done
  | failed (err : String)
  | key (k : K)
  | host (fingerprint capability : String)
  | response (r : Response)

variable {K : Type}

def Reply.isDone : Reply K → Bool
  | .done => true
  | _ => false

def Reply.err : Reply K → String
  | .failed err => err
  | _ => ""

theorem Reply.isDone_iff {r : Reply K} : r.isDone = true ↔ r = .done := by
  cases r with
  | done => simp [Reply.isDone]
  | _ => simp [Reply.isDone]

/-! ## The run -/

/-- Steps of which each is only taken when those before have succeeded. -/
def inOrder : List (String × Query K) → Talk (Query K) (Reply K) (Except String Unit)
  | [] => .ret (.ok ())
  | (what, q) :: rest => .ask q fun r =>
      if r.isDone then inOrder rest else .ret (.error (what ++ ": " ++ r.err))

/-- What is left to do at the end of a write; both errors are dropped. -/
def deferred (result : Except String Unit) : Talk (Query K) (Reply K) (Except String Unit) :=
  .ask .close fun _ => .ask .removeTemp fun _ => .ret result

def atomicWrite (file : File) (data : String) (mode : Nat) :
    Talk (Query K) (Reply K) (Except String Unit) :=
  .ask .createTemp fun r =>
    if r.isDone then
      (inOrder [("write temp", .write data), ("chmod temp", .chmod mode), ("close temp", .close),
          ("rename", .rename file)]).bind deferred
    else .ret (.error ("create temp: " ++ r.err))

/-- What a response comes to. -/
def Response.certificateOf (r : Response) : Except EnrollError String :=
  if r.statusCode ≠ 200 then
    .error (.backend (if r.error = "" then "HTTP " ++ toString r.statusCode else r.error))
  else match r.decodeError with
    | some err => .error (.decodeResponse err)
    | none => if r.certificate = "" then .error .emptyCertificate else .ok r.certificate

/-- A fresh key and the certificate for it. -/
def request (libs : Libraries K) (cfg : Config) :
    Talk (Query K) (Reply K) (Except EnrollError (K × String)) :=
  .ask .generateKey fun
    | .key k => .ask .collect fun
        | .host fingerprint capability =>
            match libs.createCSR k fingerprint with
            | .error err => .ret (.error (.createCSR err))
            | .ok csr =>
                match libs.marshalRequest ⟨csr, cfg.token, capability⟩ with
                | .error err => .ret (.error (.marshalRequest err))
                | .ok body =>
                    match libs.newRequest cfg.enrollURL with
                    | .error err => .ret (.error (.buildRequest err))
                    | .ok () => .ask (.post cfg.enrollURL body) fun
                        | .response r => .ret (r.certificateOf.map fun cert => (k, cert))
                        | r => .ret (.error (.post cfg.enrollURL r.err))
        | r => .ret (.error (.createCSR r.err))
    | r => .ret (.error (.generateKeypair r.err))

/-- The key is written when the certificate is in its place, which is taken back on an error. -/
def storeKey (libs : Libraries K) (k : K) : Talk (Query K) (Reply K) (Except EnrollError Unit) :=
  match libs.marshalPKCS8 k with
  | .error err => .ret (.error (.marshalKey err))
  | .ok keyPEM => (atomicWrite .key keyPEM 0o400).bind fun
      | .ok () => .ret (.ok ())
      | .error err => .ask (.remove .cert) fun _ => .ret (.error (.writeKey err))

def store (libs : Libraries K) (cfg : Config) (k : K) (cert : String) :
    Talk (Query K) (Reply K) (Except EnrollError Unit) :=
  .ask (.mkdirAll 0o750) fun r =>
    if r.isDone then
      (atomicWrite .cert cert 0o400).bind fun
        | .ok () => storeKey libs k
        | .error err => .ret (.error (.writeCert err))
    else .ret (.error (.mkdir (display cfg.certDir) r.err))

def run (libs : Libraries K) (cfg : Config) : Talk (Query K) (Reply K) (Except EnrollError Unit) :=
  if cfg.token = "" then .ret (.error .tokenRequired)
  else if cfg.enrollURL = "" then .ret (.error .urlRequired)
  else .ask (.stat .cert) fun r =>
    if r.isDone then .ret (.error (.certExists (cfg.path .cert)))
    else (request libs cfg).bind fun
      | .ok issued => store libs cfg issued.1 issued.2
      | .error err => .ret (.error err)

/-! ## The certificate directory -/

structure Dir where
  cert : Option String
  key : Option String
  temp : Option String
  deriving DecidableEq, Repr

def Dir.put (d : Dir) (content : Option String) : File → Dir
  | .cert => { d with cert := content }
  | .key => { d with key := content }

/-- The files that later attempts and the agent look at. -/
def Dir.files (d : Dir) : Option String × Option String := (d.cert, d.key)

/-- What a question with its reply does to the directory. A write that fails may have written
a part, and `os.Stat` finds no certificate where there is none. -/
def Effect (d : Dir) (q : Query K) (r : Reply K) (d' : Dir) : Prop :=
  match q with
  | .stat _ => (r = .done → d.cert.isSome) ∧ d' = d
  | .createTemp => d' = if r.isDone then { d with temp := some "" } else d
  | .write data => if r.isDone then d' = { d with temp := some data }
      else ∃ part, d' = { d with temp := some part }
  | .rename file => if r.isDone then
        ∃ data, d.temp = some data ∧ d' = { d with temp := none }.put (some data) file
      else d' = d
  | .removeTemp => d' = if r.isDone then { d with temp := none } else d
  | .remove file => d' = if r.isDone then d.put none file else d
  | _ => d' = d

/-- A certificate in the directory stands beside the key that it was issued for. -/
def Matched (libs : Libraries K) (d : Dir) : Prop :=
  ∀ cert, d.cert = some cert → ∃ k keyPEM, libs.issuedFor cert = some k ∧
    libs.marshalPKCS8 k = .ok keyPEM ∧ d.key = some keyPEM

/-- No attempt on the directory is refused for a certificate that is there already. -/
def Retriable (libs : Libraries K) (cfg : Config) (d : Dir) : Prop :=
  ∀ log result after, Begins (run libs cfg) log result → Effects Effect d log after →
    result ≠ some (.error (.certExists (cfg.path .cert)))

abbrev EnrollAttempt (K : Type) := Attempt Dir (Query K) (Reply K) (Except EnrollError Unit)

/-- An attempt in which nothing goes wrong once the certificate is in its place: it is not cut
off from there on, the key can be encoded, and if the key is not stored the certificate is
removed. The backend has issued the certificate for the key of the attempt. -/
structure Orderly (libs : Libraries K) (a : EnrollAttempt K) : Prop where
  uncut : (.rename .cert, .done) ∈ a.log → a.result.isSome
  encodes : ∀ k, (.generateKey, .key k) ∈ a.log → ∃ keyPEM, libs.marshalPKCS8 k = .ok keyPEM
  removes : ∀ r, (.remove .cert, r) ∈ a.log → r = .done
  issues : ∀ k url body r cert, (.generateKey, .key k) ∈ a.log →
    (.post url body, .response r) ∈ a.log → r.certificateOf = .ok cert →
      libs.issuedFor cert = some k

end PmxAgents.Core.Enroll

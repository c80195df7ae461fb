import PmxAgents.Lib.Text
import PmxAgents.Shared.Audit
import PmxAgents.Shared.ReplayWindow

/-!
# The replay file of the console broker

Every console session is a process of its own. What the processes have accepted is
kept in a file of JSON lines: a process locks the file, loads the records of the last
two hours, writes them back over the truncated file, verifies its envelope against a
cache of their job ids and, if it accepts, appends a record of its own.

## Implementation notes

Processes run one after another under the lock. The end of a process is one of its
arguments, with the bytes that reached the file; a failure behind the rewrite is a kill
without bytes, and a process that ends before the file is truncated changes nothing. The
map of loaded records is a list in the order of insertion; the orders in which the
source ranges over it are arguments of a process as well.

The purge of the cache in the background drops only entries that are not seen any more
and is left out.
-/

namespace PmxAgents.ConsoleBroker

open Lib Lib.Cbor Lib.Json Lib.JsonLines Lib.Scanner
open Shared.Audit (Time timeField)

/-- Two hours. -/
def replayTTL : Int := 2 * Shared.hour

structure Record where
  jobID : String
  observedAt : Time
  deriving DecidableEq, Repr

namespace Record

def members (r : Record) : List Member :=
  [(utf8 "job_id", .string (utf8 r.jobID)),
   (utf8 "observed_at", .string (ofChars (Timestamp.write r.observedAt.stamp)))]

def line (r : Record) : Bytes := writeObject r.members

/-- The JSON text of a record; a time whose year has too many digits has none. -/
def marshal (r : Record) : Option Bytes :=
  if r.observedAt.stamp.Valid then some r.line else none

def unmarshal (line : Bytes) : Option Record := do
  let ms ← parse line
  let jobID ← stringField ms "job_id"
  let observedAt ← timeField ms "observed_at"
  return ⟨ofUtf8 jobID, observedAt⟩

end Record

/-! ## The store -/

/-- Put a record into the map. -/
def insert (seen : List Record) (r : Record) : List Record :=
  seen.filter (fun s => s.jobID ≠ r.jobID) ++ [r]

def loadLine (cutoff : Int) (seen : List Record) (line : Bytes) : List Record :=
  match Record.unmarshal line with
  | none => seen
  | some r =>
      if Text.trimSpace r.jobID = "" ∨ r.observedAt.instant < cutoff then seen else insert seen r

/-- The records of a file that are young enough; none if the scanner fails. -/
def load (file : Bytes) (now : Int) : Option (List Record) :=
  let s := scan fileBytes file
  if s.tooLong then none else some (s.tokens.foldl (loadLine (now - replayTTL)) [])

/-- A record in front of the rest of them; one without a JSON text ends the rewriting. -/
def rewriteRecord (r : Record) (rest : Bytes × Bool) : Bytes × Bool :=
  match r.marshal with
  | none => ([], false)
  | some line => (line ++ 0x0a :: rest.1, rest.2)

/-- What is written over the truncated file, and whether all of it could be written. -/
def rewriteActive (rs : List Record) : Bytes × Bool := rs.foldr rewriteRecord ([], true)

/-- The cache of the loaded job ids; `now i` is the clock reading for the one at place `i`. -/
def replayCache (jobIDs : List String) (now : ℕ → Int) : Shared.ReplayCache :=
  jobIDs.zipIdx.foldl (fun c (jobID, i) => c.remember jobID (now i))
    (.new (jobIDs.length + 1) replayTTL)

/-- The line of an accepted envelope. -/
def rememberLine (jobID : String) (now : Int) : Option Bytes :=
  let trimmed := Text.trimSpace jobID
  if trimmed = "" then none else (Record.mk trimmed ⟨now, 0⟩).marshal

/-! ## Processes -/

/-- The clock readings of a process, in the order it takes them. -/
structure Clock where
  load : Int
  cache : ℕ → Int
  verify : Shared.Call.Clock
  remember : Int
  load_le_cache : ∀ i, load ≤ cache i
  cache_le_verify : ∀ i, cache i ≤ verify.start
  verify_le_remember : verify.remember ≤ remember

/-- A process that reads the same time throughout. -/
def Clock.at (t : Int) : Clock :=
  ⟨t, fun _ => t, .at t, t, (Shared.Call.Clock.at t).start_le_keys,
    (Shared.Call.Clock.at t).keys_le_seen, Int.le_refl t⟩

/-- How a process ends: by itself, or after some bytes of the records it writes back, or after
some bytes of its own record. -/
inductive Fate where
  | ends
  | killedInRewrite (written : ℕ)
  | killedLater (written : ℕ)
  deriving DecidableEq, Repr

/-- An envelope with its arguments, the clock, the orders in which the loaded records are
written back and put into the cache, and the end of the process. -/
structure Process where
  call : Shared.Call
  clock : Clock
  order : List Record
  cached : List String
  fate : Fate

/-- The file, the last clock reading, and the accepted envelopes with the readings of their
records. -/
structure State where
  file : Bytes
  clock : Int
  accepted : List (Shared.Envelope × Int)

/-- No file yet. -/
def State.init (clock : Int) : State := ⟨[], clock, []⟩

namespace Process

/-- The orders are possible ones for the loaded records. -/
def Ranges (p : Process) (seen : List Record) : Prop :=
  p.order.Perm seen ∧ p.cached.Perm (seen.map Record.jobID)

instance (p : Process) (seen : List Record) : Decidable (p.Ranges seen) := instDecidableAnd

section Envelope
variable (L : Shared.Libs) (p : Process)

/-- The line of the process: all records were written back, the envelope verifies, and its job
id can be recorded. -/
def newLine : Option Bytes :=
  if (rewriteActive p.order).2 then
    match (p.call.verify L p.clock.verify (replayCache p.cached p.clock.cache)).1 with
    | .error _ => none
    | .ok () => rememberLine p.call.env.jobID p.clock.remember
  else none

def newBytes : Bytes :=
  match p.newLine L with
  | none => []
  | some line => line ++ [0x0a]

/-- The file the process leaves once it has loaded the records. -/
def fileAfter : Bytes :=
  match p.fate with
  | .ends => (rewriteActive p.order).1 ++ p.newBytes L
  | .killedInRewrite written => (rewriteActive p.order).1.take written
  | .killedLater written => (rewriteActive p.order).1 ++ (p.newBytes L).take written

/-- The process returns the envelope without an error. -/
def Accepts : Prop := p.fate = .ends ∧ (p.newLine L).isSome

instance : Decidable (p.Accepts L) := instDecidableAnd

end Envelope

end Process

/-- One process, not before the last clock reading. -/
def step (L : Shared.Libs) (s : State) (p : Process) : Option State :=
  if p.clock.load < s.clock then none
  else
    match load s.file p.clock.load with
    | none => some { s with clock := p.clock.remember }
    | some seen =>
        if p.Ranges seen then
          some ⟨p.fileAfter L, p.clock.remember,
            if p.Accepts L then s.accepted ++ [(p.call.env, p.clock.remember)]
            else s.accepted⟩
        else none

end PmxAgents.ConsoleBroker

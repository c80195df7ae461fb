import PmxAgents.Lib.Cbor
import PmxAgents.Lib.JsonLines
import PmxAgents.Lib.Rfc3339
import PmxAgents.Lib.Timestamp
import PmxAgents.Shared.Envelope

/-!
# The audit log of the Go agents

An append-only file of JSON lines, each of them chained to the one before by a hash
over its fields. Opening the log reads the file up to the first line that is no
record and takes the head of the chain from there; appending writes behind whatever
the file holds; `Verify` and `Iter` read the file again from its start.

## Implementation notes

Go strings are byte strings. A time is an instant with the offset of its location,
in whole minutes: the hash reads the instant, the JSON text also shows the offset.
Machine integers are unbounded here, nothing depends on their range. SHA-256 is a
function of bytes.
-/

namespace PmxAgents.Shared.Audit

open Lib Lib.Cbor Lib.Json Lib.JsonLines Lib.Scanner Lib.Timestamp

/-- The text of an instant in UTC with the digits of the fraction it needs. -/
def rfc3339Nano (t : Int) : String :=
  String.ofList (Rfc3339.text Rfc3339.yearPadded (t / second) 0
    (Rfc3339.fracTrimmed (t % second).toNat))

/-- A time: nanoseconds since the epoch, and the minutes its location is ahead of UTC. -/
@[ext] structure Time where
  instant : Int
  offset : Int
  deriving DecidableEq, Repr

namespace Time

def isZero (t : Time) : Bool := t.instant = zeroTime

def stamp (t : Time) : Stamp :=
  ⟨t.instant / second + t.offset * 60, (t.instant % second).toNat, t.offset⟩

def ofStamp (s : Stamp) : Time := ⟨(s.secs - s.offset * 60) * second + s.nanos, s.offset⟩

theorem ofStamp_stamp (t : Time) : ofStamp t.stamp = t := by
  obtain ⟨instant, offset⟩ := t
  simp only [ofStamp, stamp, second, Time.mk.injEq, and_true]
  omega

end Time

@[ext] structure Entry where
  seq : ℕ
  timestamp : Time
  jobID : Bytes
  command : Bytes
  step : Bytes
  exit : Int
  durationMs : Int
  prevHash : Bytes
  hash : Bytes
  deriving DecidableEq, Repr

/-! ## The hash -/

/-- The bytes that are hashed, without separators. -/
def hashInput (prevHash : Bytes) (e : Entry) : Bytes :=
  prevHash ++ e.jobID ++ e.command ++ e.step ++ decimal e.exit ++ decimal e.durationMs ++
    utf8 (rfc3339Nano e.timestamp.instant)

def computeHashWithPrev (sha256 : Bytes → Bytes) (prevHash : Bytes) (e : Entry) : Bytes :=
  utf8 (Hex.encode (sha256 (hashInput prevHash e)))

def computeHash (sha256 : Bytes → Bytes) (e : Entry) : Bytes :=
  computeHashWithPrev sha256 e.prevHash e

/-! ## Lines -/

def Entry.members (e : Entry) : List Member :=
  [(utf8 "seq", .int e.seq),
   (utf8 "timestamp", .string (ofChars (Timestamp.write e.timestamp.stamp))),
   (utf8 "jobId", .string e.jobID),
   (utf8 "command", .string e.command),
   (utf8 "step", .string e.step),
   (utf8 "exit", .int e.exit),
   (utf8 "durationMs", .int e.durationMs),
   (utf8 "prevHash", .string e.prevHash),
   (utf8 "hash", .string e.hash)]

def Entry.line (e : Entry) : Bytes := writeObject e.members

/-- The JSON text of an entry; a time whose year or offset has too many digits has none. -/
def marshal (e : Entry) : Option Bytes :=
  if e.timestamp.stamp.Valid then some e.line else none

/-- A time field; the zero time when it is missing. -/
def timeField (ms : List Member) (key : String) : Option Time :=
  match field ms key with
  | none => some ⟨zeroTime, 0⟩
  | some (.string s) => (Timestamp.read (toChars s)).map Time.ofStamp
  | some (.int _) => none

def unmarshal (line : Bytes) : Option Entry := do
  let ms ← parse line
  let seq ← intField ms "seq"
  let timestamp ← timeField ms "timestamp"
  let jobID ← stringField ms "jobId"
  let command ← stringField ms "command"
  let step ← stringField ms "step"
  let exit ← intField ms "exit"
  let durationMs ← intField ms "durationMs"
  let prevHash ← stringField ms "prevHash"
  let hash ← stringField ms "hash"
  if seq < 0 then none
  else return ⟨seq.toNat, timestamp, jobID, command, step, exit, durationMs, prevHash, hash⟩

/-! ## The log -/

/-- The head of the chain and the last sequence number, as an open log keeps them. -/
structure Log where
  head : Bytes
  seq : ℕ
  deriving DecidableEq, Repr

/-- The last entry before the first line that is none, and whether there is such a line. -/
def replayLines : Option Entry → List Bytes → Option Entry × Bool
  | last, [] => (last, false)
  | last, line :: rest =>
      match unmarshal line with
      | none => (last, true)
      | some e => replayLines (some e) rest

/-- The log an existing file is opened as. The scanner's error counts only when the lines were
read to the end. -/
def openLog (file : Bytes) : Option Log :=
  let s := scan fileBytes file
  let (last, stopped) := replayLines none s.tokens
  if ¬ stopped ∧ s.tooLong then none
  else
    match last with
    | none => some ⟨[], 0⟩
    | some e => some ⟨e.hash, e.seq⟩

/-- The entry an append writes. -/
def Log.stamped (sha256 : Bytes → Bytes) (l : Log) (e : Entry) (now : Time) : Entry :=
  let e := { e with
    seq := l.seq + 1
    prevHash := l.head
    timestamp := if e.timestamp.isZero then now else e.timestamp }
  { e with hash := computeHash sha256 e }

inductive VerifyError where
  | unmarshal (line : ℕ)
  | tampered (seq line : ℕ) (expected got : Bytes)
  | scan
  deriving DecidableEq, Repr

/-- The chain from a hash on. -/
def verifyLines (sha256 : Bytes → Bytes) : Bytes → ℕ → List Bytes → Except VerifyError Unit
  | _, _, [] => .ok ()
  | prevHash, lineNum, line :: rest =>
      match unmarshal line with
      | none => .error (.unmarshal (lineNum + 1))
      | some e =>
          let expected := computeHashWithPrev sha256 prevHash e
          if e.hash ≠ expected then .error (.tampered e.seq (lineNum + 1) expected e.hash)
          else verifyLines sha256 e.hash (lineNum + 1) rest

def verify (sha256 : Bytes → Bytes) (file : Bytes) : Except VerifyError Unit :=
  let s := scan fileBytes file
  match verifyLines sha256 [] 0 s.tokens with
  | .error err => .error err
  | .ok () => if s.tooLong then .error .scan else .ok ()

/-- The entries a reader from a sequence number on is sent; lines that are none are passed
over, and the scanner's error is not looked at. -/
def iter (file : Bytes) (fromSeq : ℕ) : List Entry :=
  ((scan fileBytes file).tokens.filterMap unmarshal).filter fun e => fromSeq ≤ e.seq

/-! ## Lines are read back -/

/-- The entry that is read back: the stray bytes of its strings are replaced. -/
def Entry.sanitize (e : Entry) : Entry :=
  { e with
    jobID := Json.sanitize e.jobID
    command := Json.sanitize e.command
    step := Json.sanitize e.step
    prevHash := Json.sanitize e.prevHash
    hash := Json.sanitize e.hash }

theorem nodup_keys (e : Entry) : (e.members.map Prod.fst).Nodup := by
  have hkeys : [utf8 "seq", utf8 "timestamp", utf8 "jobId", utf8 "command", utf8 "step",
      utf8 "exit", utf8 "durationMs", utf8 "prevHash", utf8 "hash"].Nodup := by decide
  exact hkeys

theorem sanitize_members (e : Entry) : sanitizeMembers e.members = e.sanitize.members := by
  have hkeys : ∀ k ∈ [utf8 "seq", utf8 "timestamp", utf8 "jobId", utf8 "command", utf8 "step",
      utf8 "exit", utf8 "durationMs", utf8 "prevHash", utf8 "hash"], Json.sanitize k = k := by
    decide
  have htime : Json.sanitize (ofChars (Timestamp.write e.timestamp.stamp)) =
      ofChars (Timestamp.write e.timestamp.stamp) :=
    sanitize_eq (valid_of_ascii (valid_ofChars lt_of_mem_write))
  simp only [List.forall_mem_cons] at hkeys
  obtain ⟨h₁, h₂, h₃, h₄, h₅, h₆, h₇, h₈, h₉, -⟩ := hkeys
  simp only [sanitizeMembers, Entry.members, List.map_cons, List.map_nil, Value.sanitize, htime,
    h₁, h₂, h₃, h₄, h₅, h₆, h₇, h₈, h₉, Entry.sanitize]

theorem timeField_of_mem {ms : List Member} (hnd : (ms.map Prod.fst).Nodup) {key : String}
    {t : Time} (hm : (utf8 key, .string (ofChars (Timestamp.write t.stamp))) ∈ ms)
    (h : t.stamp.Valid) : timeField ms key = some t := by
  rw [timeField, field_of_mem hnd hm]
  simp only [toChars_ofChars lt_of_mem_write, read_write h, Option.map_some, Time.ofStamp_stamp]

/-- A record is read from its members. -/
theorem unmarshal_eq {line : Bytes} {e : Entry} (hparse : parse line = some e.members)
    (h : e.timestamp.stamp.Valid) : unmarshal line = some e := by
  have hseq : intField e.members "seq" = some (e.seq : ℤ) :=
    intField_of_mem (nodup_keys e) (List.mem_of_getElem? (i := 0) rfl)
  have htime : timeField e.members "timestamp" = some e.timestamp :=
    timeField_of_mem (nodup_keys e) (List.mem_of_getElem? (i := 1) rfl) h
  have hjob : stringField e.members "jobId" = some e.jobID :=
    stringField_of_mem (nodup_keys e) (List.mem_of_getElem? (i := 2) rfl)
  have hcommand : stringField e.members "command" = some e.command :=
    stringField_of_mem (nodup_keys e) (List.mem_of_getElem? (i := 3) rfl)
  have hstep : stringField e.members "step" = some e.step :=
    stringField_of_mem (nodup_keys e) (List.mem_of_getElem? (i := 4) rfl)
  have hexit : intField e.members "exit" = some e.exit :=
    intField_of_mem (nodup_keys e) (List.mem_of_getElem? (i := 5) rfl)
  have hduration : intField e.members "durationMs" = some e.durationMs :=
    intField_of_mem (nodup_keys e) (List.mem_of_getElem? (i := 6) rfl)
  have hprev : stringField e.members "prevHash" = some e.prevHash :=
    stringField_of_mem (nodup_keys e) (List.mem_of_getElem? (i := 7) rfl)
  have hhash : stringField e.members "hash" = some e.hash :=
    stringField_of_mem (nodup_keys e) (List.mem_of_getElem? (i := 8) rfl)
  have hneg : ¬ (e.seq : ℤ) < 0 := by omega
  unfold unmarshal
  rw [hparse, Option.bind_eq_bind, Option.bind_some, hseq, htime, hjob, hcommand, hstep, hexit,
    hduration, hprev, hhash]
  exact if_neg (t := none) hneg

/-- A written line is read back, with the stray bytes of its strings replaced. -/
theorem unmarshal_line {e : Entry} (h : e.timestamp.stamp.Valid) :
    unmarshal e.line = some e.sanitize := by
  have hparse : parse e.line = some e.sanitize.members := by
    rw [Entry.line, parse_writeObject, sanitize_members]
  exact unmarshal_eq hparse h

/-- A line that was cut off is no entry. -/
theorem unmarshal_isPrefix {e : Entry} {p : Bytes} (h : p <+: e.line) (hne : p ≠ e.line) :
    unmarshal p = none := by
  have hparse : parse p = none := parse_isPrefix h hne
  rw [unmarshal, hparse]
  rfl

end PmxAgents.Shared.Audit

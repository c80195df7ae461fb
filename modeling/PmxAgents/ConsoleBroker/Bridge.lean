import Mathlib.Algebra.GroupWithZero.Nat
import Mathlib.Data.List.Infix
import PmxAgents.Lib.Runs
import PmxAgents.Lib.Text

/-!
# The console bridge

A console session copies bytes between a local connection and the backend, with one loop for
each direction. A loop reads, waits for the limiter, writes, and counts what it has written.

The limiter admits at most its burst at once, and a wait for more fails. The burst is 64 KiB,
but a frame of the backend may have 8 MiB: a frame in between ends the session.

## Implementation notes

What the connections, the limiter and the context do are the actions of a loop. The counters
have 64 bits. Beside them a loop keeps what its connection has really taken.
-/

namespace PmxAgents.ConsoleBroker.Bridge

open Lib Lib.Runs

/-! ## Errors -/

inductive Kind where
  | deadlineExceeded
  | canceled
  | eof
  | close (code : ℕ)
  | other
  deriving DecidableEq, Repr

/-- An error: what it is, and its text. -/
structure Failure where
  kind : Kind
  message : String
  deriving DecidableEq, Repr

def isClosedNetworkError (err : Failure) : Bool :=
  let msg := (Casing.toLower err.message).toList
  "use of closed network connection".toList <:+: msg || "broken pipe".toList <:+: msg

/-- The error that `Run` returns for the first one of the loops. -/
def returned : Option Failure → Option Failure
  | none => none
  | some err => match err.kind with
      | .deadlineExceeded => none
      | .canceled => none
      | .eof => none
      | .close code => if code = 1000 ∨ code = 1001 then none
          else if isClosedNetworkError err then none else some err
      | .other => if isClosedNetworkError err then none else some err

/-! ## The limiter -/

structure Options where
  rateLimitMbps : ℤ

structure Limiter where
  limit : ℤ
  burst : ℕ

def bytesPerSecond (opts : Options) : ℤ :=
  let limit := if opts.rateLimitMbps ≤ 0 then 100 else opts.rateLimitMbps
  Int.bmod (limit * 125000) (2 ^ 64)

def burst : ℕ := 64 * 1024

def newLimiter (opts : Options) : Limiter := ⟨bytesPerSecond opts, burst⟩

/-- `WaitN` of the rate package with a context that stays alive: it fails for more than the burst.
-/
structure Rate where
  waitN : Limiter → ℕ → Option Failure
  fails_iff : ∀ limiter n, (waitN limiter n).isSome ↔ limiter.burst < n

/-! ## A copy loop -/

/-- Where a loop is. With the data it keeps the error that came with the same read. -/
inductive Phase where
  | reading
  | waiting (data : List UInt8) (err : Option Failure)
  | writing (data : List UInt8) (err : Option Failure)
  | countingBytes (data : List UInt8) (err : Option Failure)
  | countingFrame (err : Option Failure)
  | finished (err : Failure)
  deriving DecidableEq

/-- The end of a round. -/
def Phase.next : Option Failure → Phase
  | none => .reading
  | some err => .finished (if err.kind = .eof then ⟨.eof, "EOF"⟩ else err)

structure Loop where
  phase : Phase
  bytes : BitVec 64
  frames : BitVec 64
  /-- What the connection has taken. -/
  written : List UInt8
  writes : ℕ
  deriving DecidableEq

def Loop.init : Loop := ⟨.reading, 0, 0, [], 0⟩

/-- The size of the buffer for reads from the local connection. -/
def bufferSize : ℕ := 32 * 1024

/-- A read of `copyLocalToWS`. -/
def readLocal (data : List UInt8) (err : Option Failure) : Phase :=
  if data = [] then .next err else .waiting data err

inductive MessageType where
  | text
  | binary
  deriving DecidableEq, Repr

structure Message where
  messageType : MessageType
  payload : List UInt8

def readLimit : ℕ := 8 * 2 ^ 20

/-- `ReadMessage` for what the backend sends. -/
def receive (m : Message) : Except Failure Message :=
  if readLimit < m.payload.length then .error ⟨.other, "websocket: read limit exceeded"⟩ else .ok m

/-- A read of `copyWSToLocal`. -/
def readMessage : Except Failure Message → Phase
  | .error err => .finished err
  | .ok m =>
      if m.messageType ≠ .binary then .reading
      else if m.payload = [] then .reading
      else .waiting m.payload none

/-- A write is complete, or it fails after a part of the data. -/
inductive Outcome where
  | complete
  | failed (part : ℕ) (err : Failure)
  deriving DecidableEq

inductive LoopAction where
  | read (next : Phase)
  | waited (err : Option Failure)
  | wrote (outcome : Outcome)
  | addBytes
  | addFrame
  deriving DecidableEq

def Loop.step (l : Loop) : LoopAction → Option Loop
  | .read next => if l.phase = .reading then some { l with phase := next } else none
  | .waited err => match l.phase with
      | .waiting data rest => some { l with phase := match err with
          | none => .writing data rest
          | some err => .finished err }
      | _ => none
  | .wrote outcome => match l.phase with
      | .writing data rest => some (match outcome with
          | .complete => { l with
              phase := .countingBytes data rest
              written := l.written ++ data
              writes := l.writes + 1 }
          | .failed part err => { l with
              phase := .finished err, written := l.written ++ data.take part })
      | _ => none
  | .addBytes => match l.phase with
      | .countingBytes data rest =>
          some { l with
            phase := .countingFrame rest
            bytes := l.bytes + BitVec.ofNat 64 data.length }
      | _ => none
  | .addFrame => match l.phase with
      | .countingFrame rest => some { l with phase := .next rest, frames := l.frames + 1 }
      | _ => none

/-! ## Frames of the backend -/

section Frames
variable (rate : Rate) (limiter : Limiter)

/-- The rest of a round with data, with a context that stays alive and a connection that takes every
write. -/
def dataActions (data : List UInt8) : List LoopAction :=
  match rate.waitN limiter data.length with
  | some err => [.waited (some err)]
  | none => [.waited none, .wrote .complete, .addBytes, .addFrame]

/-- A round of `copyWSToLocal`. -/
def messageActions (m : Message) : List LoopAction :=
  .read (readMessage (receive m)) :: match readMessage (receive m) with
    | .waiting data _ => dataActions rate limiter data
    | _ => []

/-- `copyWSToLocal` for one message. A loop that has finished reads no more. -/
def copyMessage (l : Loop) (m : Message) : Loop :=
  (exec Loop.step l (messageActions rate limiter m)).getD l

def copyMessages (messages : List Message) : Loop := messages.foldl (copyMessage rate limiter) .init

variable {rate limiter} {l : Loop} {m : Message}

theorem readMessage_of_nil (hbinary : m.messageType = .binary) (hempty : m.payload = []) :
    readMessage (receive m) = .reading := by
  have hlimit : ¬readLimit < m.payload.length := by simp [hempty]
  rw [receive, if_neg hlimit, readMessage, if_neg (not_not.mpr hbinary), if_pos hempty]

theorem readMessage_of_ne_nil (hbinary : m.messageType = .binary)
    (hlimit : m.payload.length ≤ readLimit) (hne : m.payload ≠ []) :
    readMessage (receive m) = .waiting m.payload none := by
  rw [receive, if_neg (Nat.not_lt.mpr hlimit), readMessage, if_neg (not_not.mpr hbinary),
    if_neg hne]

theorem copyMessage_of_reading (hl : l.phase = .reading)
    (hread : readMessage (receive m) = .reading) :
    copyMessage rate limiter l m = l := by
  have hstep : l.step (.read .reading) = some l := by rw [Loop.step, if_pos hl, ← hl]
  rw [copyMessage, messageActions, hread, exec, hstep]
  rfl

theorem copyMessage_of_waiting {data : List UInt8} (hl : l.phase = .reading)
    (hread : readMessage (receive m) = .waiting data none) : copyMessage rate limiter l m =
      match rate.waitN limiter data.length with
      | some err => { l with phase := .finished err }
      | none => ⟨.reading, l.bytes + BitVec.ofNat 64 data.length, l.frames + 1, l.written ++ data,
          l.writes + 1⟩ := by
  have hstep : l.step (.read (.waiting data none)) = some { l with phase := .waiting data none } :=
    if_pos hl
  rw [copyMessage, messageActions, hread, exec, hstep]
  show Option.getD (exec Loop.step { l with phase := .waiting data none }
    (dataActions rate limiter data)) l = _
  rw [dataActions]
  cases rate.waitN limiter data.length with
  | none => rfl
  | some err => rfl

theorem waitN_of_le {n : ℕ} (hburst : n ≤ limiter.burst) : rate.waitN limiter n = none :=
  Option.not_isSome_iff_eq_none.mp ((rate.fails_iff limiter n).not.mpr (Nat.not_lt.mpr hburst))

theorem copyMessage_of_ne (hl : l.phase ≠ .reading) : copyMessage rate limiter l m = l := by
  have hstep : l.step (.read (readMessage (receive m))) = none := if_neg hl
  rw [copyMessage, messageActions, exec, hstep]
  rfl

/-- A loop that has finished stays as it is. -/
theorem foldl_copyMessage_of_ne (hl : l.phase ≠ .reading) (messages : List Message) :
    messages.foldl (copyMessage rate limiter) l = l := by
  induction messages with
  | nil => rfl
  | cons m rest ih => rw [List.foldl_cons, copyMessage_of_ne hl, ih]

/-- Binary messages, from a loop that reads on: it writes all of them unless one is larger than the
burst. -/
theorem foldl_copyMessage_iff {messages : List Message} (hl : l.phase = .reading)
    (hmessages : ∀ m ∈ messages, m.messageType = .binary ∧ m.payload.length ≤ readLimit) :
    ((messages.foldl (copyMessage rate limiter) l).written =
        l.written ++ (messages.map (·.payload)).flatten ∧
      (messages.foldl (copyMessage rate limiter) l).phase = .reading) ↔
      ∀ m ∈ messages, m.payload.length ≤ limiter.burst := by
  induction messages generalizing l with
  | nil => exact iff_of_true ⟨(List.append_nil _).symm, hl⟩ (List.forall_mem_nil _)
  | cons m rest ih =>
      obtain ⟨⟨hbinary, hlimit⟩, hrest⟩ := List.forall_mem_cons.mp hmessages
      rw [List.foldl_cons, List.forall_mem_cons, List.map_cons, List.flatten_cons]
      by_cases hempty : m.payload = []
      · rw [copyMessage_of_reading hl (readMessage_of_nil hbinary hempty), hempty, List.nil_append,
          ih hl hrest]
        exact (and_iff_right (Nat.zero_le _)).symm
      · rw [copyMessage_of_waiting hl (readMessage_of_ne_nil hbinary hlimit hempty)]
        by_cases hburst : m.payload.length ≤ limiter.burst
        · rw [waitN_of_le hburst, and_iff_right hburst, ← List.append_assoc]
          exact ih rfl hrest
        · obtain ⟨err, hwait⟩ := Option.isSome_iff_exists.mp
            ((rate.fails_iff limiter m.payload.length).mpr (Nat.not_le.mp hburst))
          have hended : ({ l with phase := .finished err } : Loop).phase ≠ .reading := by simp
          rw [hwait, foldl_copyMessage_of_ne hended]
          exact iff_of_false (fun h => hended h.2) (fun h => hburst h.1)

end Frames

/-- Whatever binary frames the backend sends within the read limit: the local connection takes all
of them and the session goes on if and only if none is larger than the burst of the limiter. -/
theorem copyMessages_eq_flatten_iff (rate : Rate) (opts : Options) (messages : List Message)
    (hmessages : ∀ m ∈ messages, m.messageType = .binary ∧ m.payload.length ≤ readLimit) :
    ((copyMessages rate (newLimiter opts) messages).written = (messages.map (·.payload)).flatten ∧
      (copyMessages rate (newLimiter opts) messages).phase = .reading) ↔
      ∀ m ∈ messages, m.payload.length ≤ burst :=
  foldl_copyMessage_iff rfl hmessages

/-- The error that the rate package gives for a wait that cannot succeed. -/
def documentedWait (limiter : Limiter) (n : ℕ) : Option Failure :=
  if limiter.burst < n then
    some ⟨.other, s!"rate: Wait(n={n}) exceeds limiter's burst {limiter.burst}"⟩
  else none

theorem documentedWait_isSome (limiter : Limiter) (n : ℕ) :
    (documentedWait limiter n).isSome ↔ limiter.burst < n := by
  rw [documentedWait]
  split_ifs with h
  · exact iff_of_true rfl h
  · exact iff_of_false Bool.false_ne_true h

def documentedRate : Rate := ⟨documentedWait, documentedWait_isSome⟩

def frame (n : ℕ) : Message := ⟨.binary, List.replicate n 0⟩

theorem frame_binary (n : ℕ) : (frame n).messageType = .binary := rfl

theorem copyMessages_eq_flatten_iff_keystrokes :
    (copyMessages documentedRate (newLimiter ⟨0⟩) [frame 1, frame 3]).written = [0, 0, 0, 0] ∧
      (copyMessages documentedRate (newLimiter ⟨0⟩) [frame 1, frame 3]).phase = .reading := by
  have hmessages : ∀ m ∈ [frame 1, frame 3], m.messageType = .binary ∧
    m.payload.length ≤ readLimit := by
    simp [frame, readLimit]
  exact (copyMessages_eq_flatten_iff documentedRate ⟨0⟩ [frame 1, frame 3] hmessages).mpr
    (by simp [frame, burst])

/-- A frame of 64 KiB and one byte ends the session, and nothing of it is written. -/
theorem large_frame_ends_session :
    (frame 65537).messageType = .binary ∧ (frame 65537).payload.length ≤ readLimit ∧
      (copyMessages documentedRate (newLimiter ⟨100⟩) [frame 65537]).written = [] ∧
      (copyMessages documentedRate (newLimiter ⟨100⟩) [frame 65537]).phase =
        .finished ⟨.other, "rate: Wait(n=65537) exceeds limiter's burst 65536"⟩ := by
  have hlength : (frame 65537).payload.length = 65537 := List.length_replicate
  have hlimit : (frame 65537).payload.length ≤ readLimit := by
    rw [hlength]
    decide
  have hne : (frame 65537).payload ≠ [] := List.ne_nil_of_length_pos (by rw [hlength]; decide)
  have hwait : documentedRate.waitN (newLimiter ⟨100⟩) 65537 =
      some ⟨.other, "rate: Wait(n=65537) exceeds limiter's burst 65536"⟩ := by decide +kernel
  have hread := readMessage_of_ne_nil (frame_binary 65537) hlimit hne
  refine ⟨frame_binary _, hlimit, ?_⟩
  rw [copyMessages, List.foldl_cons, List.foldl_nil, copyMessage_of_waiting rfl hread, hlength,
    hwait]
  exact ⟨rfl, rfl⟩

end PmxAgents.ConsoleBroker.Bridge

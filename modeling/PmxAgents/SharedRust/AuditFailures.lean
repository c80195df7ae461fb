import PmxAgents.Shared.AuditFailures
import PmxAgents.SharedRust.Audit

/-!
# Appends that fail, in both languages

`append` of the Rust agents works like `Append` of the Go agents: the head advances last,
and a write that fails leaves its bytes in the file. Its check of the chain reads lines
of any length, and its strings are always valid, so that failed appends are the only way
in which an open log comes to hold a file that does not verify.

## Implementation notes

The JSON crate is a parameter: a record is read back from its line, which is one line.
A line that is not UTF-8 is an error of its own kind, and no record here.
-/

namespace PmxAgents.SharedRust.Audit

open Lib Lib.Cbor Lib.Json Lib.Runs Lib.AppendLog

/-- What an open log keeps of the last entry. -/
structure Inner where
  head : String
  seq : ℕ
  deriving DecidableEq, Repr

/-- `serde_json` for the entries of the log. -/
structure Serde where
  toVec : Entry → Option Bytes
  fromStr : Bytes → Option Entry

/-- A record is written as one line, without line ends, and read back from it. -/
structure Serde.Lawful (S : Serde) : Prop where
  fromStr_toVec : ∀ {e line}, S.toVec e = some line → S.fromStr line = some e
  ne_nil : ∀ {e line}, S.toVec e = some line → line ≠ []
  no_newline : ∀ {e line}, S.toVec e = some line → (0x0a : UInt8) ∉ line
  no_cr : ∀ {e line}, S.toVec e = some line → line.getLast? ≠ some 0x0d

/-- `BufRead::lines`: a line ends with a line feed, which a carriage return may precede. -/
def bufLines : Bytes → List Bytes
  | [] => []
  | c :: rest =>
      if c = 0x0a then [] :: bufLines rest
      else if c = 0x0d ∧ rest.head? = some 0x0a then bufLines rest
      else
        match bufLines rest with
        | [] => [[c]]
        | l :: ls => (c :: l) :: ls

section Append
variable (toRfc3339 : DateTime → String) (sha256 : Bytes → Bytes) (S : Serde)

/-- The entry an append writes; the default timestamp is the start of the epoch. -/
def Inner.stamped (l : Inner) (e : Entry) (now : DateTime) : Entry :=
  let e := { e with
    seq := l.seq + 1
    prevHash := l.head
    timestamp := if e.timestamp.secs = 0 ∧ e.timestamp.nanos = 0 then now else e.timestamp }
  { e with hash := computeHash toRfc3339 sha256 e.prevHash e }

/-- `append` of an entry at a clock reading. -/
def writer : Writer Inner (Entry × DateTime) Entry where
  stamp l request := l.stamped toRfc3339 sha256 request.1 request.2
  marshal := S.toVec
  remember e := ⟨e.hash, e.seq⟩

def verify (file : Bytes) : Except AuditError Unit :=
  verifyLines toRfc3339 sha256 S.fromStr "" 0 (bufLines file)

/-- Each entry carries the hash of the entry before it and of itself. -/
def Linked : String → List Entry → Prop
  | _, [] => True
  | prevHash, e :: es =>
      e.hash = computeHash toRfc3339 sha256 prevHash e ∧ Linked e.hash es

/-- The hash a chain ends in. -/
def lastHash : String → List Entry → String
  | prevHash, [] => prevHash
  | _, e :: es => lastHash e.hash es

/-- Written entries, each chained to the one before. -/
structure Chain (es : List Entry) : Prop where
  linked : Linked toRfc3339 sha256 "" es
  written : ∀ e ∈ es, (S.toVec e).isSome

/-- What the log keeps after some entries. -/
def innerOf (es : List Entry) : Inner := memoryOf (writer toRfc3339 sha256 S) ⟨"", 0⟩ es

/-- No failed append leaves a byte behind. -/
def CleanCall (_ : State Inner Entry) (call : (Entry × DateTime) × Fate) : Prop :=
  LeavesNothing call.2

end Append

/-! ## Lines -/

theorem bufLines_append {line : Bytes} (hline : (0x0a : UInt8) ∉ line)
    (hcr : line.getLast? ≠ some 0x0d) (rest : Bytes) :
    bufLines (line ++ 0x0a :: rest) = line :: bufLines rest := by
  induction line with
  | nil => rfl
  | cons c line ih =>
      obtain ⟨hc, hline⟩ : 0x0a ≠ c ∧ 0x0a ∉ line := by simpa using hline
      have hnotEnd : ¬ (c = 0x0d ∧ (line ++ 0x0a :: rest).head? = some 0x0a) := by
        rintro ⟨rfl, hhead⟩
        cases line with
        | nil => exact hcr rfl
        | cons d line => simp_all
      have hcr : line.getLast? ≠ some 0x0d := by
        cases line with
        | nil => simp
        | cons d line => simpa [List.getLast?_cons_cons] using hcr
      rw [List.cons_append, bufLines, if_neg (Ne.symm hc), if_neg hnotEnd, ih hline hcr]

section Failures
variable {toRfc3339 : DateTime → String} {sha256 : Bytes → Bytes} {S : Serde}

theorem linked_append {prevHash : String} {es es' : List Entry} :
    Linked toRfc3339 sha256 prevHash (es ++ es') ↔ Linked toRfc3339 sha256 prevHash es ∧
      Linked toRfc3339 sha256 (lastHash prevHash es) es' := by
  induction es generalizing prevHash with
  | nil => simp [Linked, lastHash]
  | cons e es ih => rw [List.cons_append, Linked, ih, Linked, lastHash, and_assoc]

theorem memoryOf_writer_head (l : Inner) (es : List Entry) :
    (memoryOf (writer toRfc3339 sha256 S) l es).head = lastHash l.head es := by
  induction es generalizing l with
  | nil => rfl
  | cons e es ih =>
      rw [lastHash]
      have hmemory : memoryOf (writer toRfc3339 sha256 S) l (e :: es) =
          memoryOf (writer toRfc3339 sha256 S) ⟨e.hash, e.seq⟩ es := by
        cases hlast : es.getLast? <;> simp [memoryOf, List.getLast?_cons, hlast, writer]
      rw [hmemory, ih]

/-- Entries that are derived from each other are chained. -/
theorem linked_of_derived {l : Inner} {es : List Entry}
    (h : Derived (writer toRfc3339 sha256 S) l es) : Linked toRfc3339 sha256 l.head es := by
  induction h with
  | nil => trivial
  | @concat es e request _ stamp ih =>
      refine linked_append.mpr ⟨ih, ?_, trivial⟩
      rw [← memoryOf_writer_head (S := S), stamp]
      rfl

/-- A file of chained entries verifies. -/
theorem verifyLines_fileOf (hS : S.Lawful) {prevHash : String} {es : List Entry}
    (hlinked : Linked toRfc3339 sha256 prevHash es) (hwritten : ∀ e ∈ es, (S.toVec e).isSome)
    (idx : ℕ) :
    verifyLines toRfc3339 sha256 S.fromStr prevHash idx
      (bufLines (AppendLog.fileOf (writer toRfc3339 sha256 S) es)) = .ok () := by
  induction es generalizing prevHash idx with
  | nil => rfl
  | cons e es ih =>
      obtain ⟨he, hes⟩ := List.forall_mem_cons.mp hwritten
      obtain ⟨line, hline⟩ := Option.isSome_iff_exists.mp he
      have hfile : AppendLog.fileOf (writer toRfc3339 sha256 S) (e :: es) =
          line ++ 0x0a :: AppendLog.fileOf (writer toRfc3339 sha256 S) es := by
        simp [AppendLog.fileOf, writer, hline]
      rw [hfile, bufLines_append (hS.no_newline hline) (hS.no_cr hline), verifyLines,
        if_neg (hS.ne_nil hline), hS.fromStr_toVec hline]
      simp only
      rw [if_neg (not_not_intro hlinked.1)]
      exact ih hlinked.2 hes _

/-- A run of clean calls on a log that was opened on a chain leaves a file that verifies. -/
theorem verify_of_cleanCalls (hS : S.Lawful) {es : List Entry} (hes : Chain toRfc3339 sha256 S es)
    {calls : List ((Entry × DateTime) × Fate)} {t : State Inner Entry}
    (hclean : Admits (step (writer toRfc3339 sha256 S)) CleanCall
      (State.opened (AppendLog.fileOf (writer toRfc3339 sha256 S) es)
        (innerOf toRfc3339 sha256 S es)) calls)
    (hrun : exec (step (writer toRfc3339 sha256 S))
      (State.opened (AppendLog.fileOf (writer toRfc3339 sha256 S) es)
        (innerOf toRfc3339 sha256 S es)) calls = some t) :
    verify toRfc3339 sha256 S t.file = .ok () := by
  have hadmits : Admits (step (writer toRfc3339 sha256 S))
      (Clean (writer toRfc3339 sha256 S) fun _ => True)
      (State.opened (AppendLog.fileOf (writer toRfc3339 sha256 S) es)
        (innerOf toRfc3339 sha256 S es)) calls :=
    (admits_congr fun _ _ => by simp [Clean, CleanCall]).mp hclean
  have hwhole := whole_of_exec hadmits hrun
  have hfile : t.file = AppendLog.fileOf (writer toRfc3339 sha256 S) (es ++ t.completed) := by
    rw [hwhole.file, AppendLog.fileOf, AppendLog.fileOf, AppendLog.fileOf, List.flatMap_append]
  have hlinked := linked_of_derived hwhole.inOrder.derived
  rw [innerOf, memoryOf_writer_head] at hlinked
  rw [verify, hfile]
  refine verifyLines_fileOf hS (linked_append.mpr ⟨hes.linked, hlinked⟩) ?_ 0
  exact List.forall_mem_append.mpr ⟨hes.written, hwhole.marshals⟩

end Failures

/-- In every run of one open log, of either language, the entries whose append returned without
an error are chained, and the file verifies if no failed append has left a byte behind and, for
the Go agents, every line fits into the scanner and every string is valid UTF-8. -/
theorem failed_appends_verify_of_clean (toRfc3339 : DateTime → String) (sha256 : Bytes → Bytes)
    {S : Serde} (hS : S.Lawful) :
    (∀ (es : List Shared.Audit.Entry)
        (calls : List ((Shared.Audit.Entry × Shared.Audit.Time) × Fate))
        (t : State Shared.Audit.Log Shared.Audit.Entry), Shared.Audit.Chain sha256 es →
      exec (step (Shared.Audit.writer sha256))
        (State.opened (Shared.Audit.fileOf es) (Shared.Audit.logOf es)) calls = some t →
      Shared.Audit.Linked sha256 (Shared.Audit.logOf es).head t.completed ∧
        (Admits (step (Shared.Audit.writer sha256)) (Shared.Audit.CleanCall sha256)
            (State.opened (Shared.Audit.fileOf es) (Shared.Audit.logOf es)) calls →
          Shared.Audit.verify sha256 t.file = .ok ())) ∧
    ∀ (es : List Entry) (calls : List ((Entry × DateTime) × Fate)) (t : State Inner Entry),
      Chain toRfc3339 sha256 S es →
      exec (step (writer toRfc3339 sha256 S))
        (State.opened (AppendLog.fileOf (writer toRfc3339 sha256 S) es)
          (innerOf toRfc3339 sha256 S es)) calls = some t →
      Linked toRfc3339 sha256 (innerOf toRfc3339 sha256 S es).head t.completed ∧
        (Admits (step (writer toRfc3339 sha256 S)) CleanCall
            (State.opened (AppendLog.fileOf (writer toRfc3339 sha256 S) es)
              (innerOf toRfc3339 sha256 S es)) calls →
          verify toRfc3339 sha256 S t.file = .ok ()) := by
  constructor
  · intro es calls t hes hrun
    exact ⟨Shared.Audit.linked_of_derived (inOrder_of_exec hrun).derived,
      fun hclean => Shared.Audit.verify_of_cleanCalls hes hclean hrun⟩
  · intro es calls t hes hrun
    exact ⟨linked_of_derived (inOrder_of_exec hrun).derived,
      fun hclean => verify_of_cleanCalls hS hes hclean hrun⟩

/-! ## Entries written as the Go agents write them -/

instance (e : Entry) : Decidable e.Portable :=
  decidable_of_iff (e.timestamp.nanos < 10 ^ 9 ∧
      0 ≤ (Calendar.civilOfDays (e.timestamp.secs / 86400)).year ∧
      (Calendar.civilOfDays (e.timestamp.secs / 86400)).year ≤ 9999)
    ⟨fun ⟨h₁, h₂, h₃⟩ => ⟨h₁, h₂, h₃⟩, fun ⟨h₁, h₂, h₃⟩ => ⟨h₁, h₂, h₃⟩⟩

theorem toGo_timestamp {e : Entry} (h : e.Portable) :
    e.toGo.timestamp.instant / Shared.second = e.timestamp.secs ∧
      (e.toGo.timestamp.instant % Shared.second).toNat = e.timestamp.nanos := by
  have hnanos := h.nanos_lt
  simp only [Entry.toGo, Shared.second]
  omega

/-- The entry a Go agent holds, with its time in UTC. -/
def ofGo (g : Shared.Audit.Entry) : Option Entry :=
  (DateTime.fromTimestamp (g.timestamp.instant / Shared.second)
      (g.timestamp.instant % Shared.second).toNat).map fun timestamp =>
    ⟨g.seq, timestamp, ofUtf8 g.jobID, ofUtf8 g.command, ofUtf8 g.step, g.exit, g.durationMs,
      ofUtf8 g.prevHash, ofUtf8 g.hash⟩

/-- A crate that writes and reads the lines of the Go agents. -/
def goSerde : Serde where
  toVec e := if e.Portable then some e.toGo.line else none
  fromStr line := (Shared.Audit.unmarshal line).bind ofGo

theorem ofGo_toGo {e : Entry} (h : e.Portable) : ofGo e.toGo = some e := by
  obtain ⟨hsecs, hfrac⟩ := toGo_timestamp h
  rw [ofGo, hsecs, hfrac, DateTime.fromTimestamp_eq_some.mpr ⟨rfl, rfl, h.nanos_lt⟩]
  simp only [Option.map_some, Entry.toGo, ofUtf8_utf8]

theorem valid_stamp_toGo {e : Entry} (h : e.Portable) : e.toGo.timestamp.stamp.Valid := by
  obtain ⟨hsecs, hfrac⟩ := toGo_timestamp h
  have hlocal : e.toGo.timestamp.stamp.secs = e.timestamp.secs := by
    simp only [Shared.Audit.Time.stamp, hsecs]
    simp [Entry.toGo]
  refine ⟨?_, ?_, ?_, by simp [Shared.Audit.Time.stamp, Entry.toGo]⟩
  · rw [hlocal]
    exact h.year_nonneg
  · rw [hlocal]
    exact h.year_le
  · rw [Shared.Audit.Time.stamp, hfrac]
    exact h.nanos_lt

theorem sanitize_toGo (e : Entry) : e.toGo.sanitize = e.toGo := by
  simp only [Shared.Audit.Entry.sanitize, Entry.toGo, sanitize_eq (valid_utf8 _)]

theorem goSerde_lawful : goSerde.Lawful := by
  have hline : ∀ {e line}, goSerde.toVec e = some line → e.Portable ∧ line = e.toGo.line := by
    intro e line h
    simp only [goSerde] at h
    split_ifs at h with hportable
    exact ⟨hportable, (Option.some.inj h).symm⟩
  refine ⟨fun h => ?_, fun h => ?_, fun h => ?_, fun h => ?_⟩
  · obtain ⟨hportable, rfl⟩ := hline h
    simp only [goSerde]
    rw [Shared.Audit.unmarshal_line (valid_stamp_toGo hportable), sanitize_toGo, Option.bind_some,
      ofGo_toGo hportable]
  · rw [(hline h).2]
    exact JsonLines.writeObject_ne_nil _
  · rw [(hline h).2]
    exact JsonLines.newline_notMem_writeObject _
  · rw [(hline h).2, Shared.Audit.Entry.line, getLast?_writeObject]
    decide

/-! ## One failed append -/

/-- A request of each language, at the first second of the epoch. -/
def goRequest (jobID : String) : Shared.Audit.Entry × Shared.Audit.Time :=
  (⟨0, ⟨0, 0⟩, utf8 jobID, utf8 "status", utf8 "run", 0, 12, [], []⟩, ⟨0, 0⟩)

def request (jobId : String) : Entry × DateTime :=
  (⟨0, epoch, jobId, "status", "run", 0, 12, "", ""⟩, epoch)

/-- The runs of both languages on a new file. -/
def goRun (calls : List (String × Fate)) : Option (State Shared.Audit.Log Shared.Audit.Entry) :=
  exec (step (Shared.Audit.writer Shared.Audit.firstBytes))
    (State.opened (Shared.Audit.fileOf []) (Shared.Audit.logOf []))
    (calls.map (Prod.map goRequest id))

def rustRun (calls : List (String × Fate)) : Option (State Inner Entry) :=
  exec (step (writer rfc3339AutoSi Shared.Audit.firstBytes goSerde))
    (State.opened (AppendLog.fileOf (writer rfc3339AutoSi Shared.Audit.firstBytes goSerde) [])
      (innerOf rfc3339AutoSi Shared.Audit.firstBytes goSerde []))
    (calls.map (Prod.map request id))

/-- A write fails before its first byte, and the next append succeeds. -/
theorem failed_appends_verify_unwritten :
    (∃ t, goRun [("job-1", .writeError 0), ("job-2", .stored)] = some t ∧
      t.completed.map Shared.Audit.Entry.seq = [1] ∧
      Shared.Audit.Linked Shared.Audit.firstBytes [] t.completed ∧
      Shared.Audit.verify Shared.Audit.firstBytes t.file = .ok ()) ∧
    ∃ t, rustRun [("job-1", .writeError 0), ("job-2", .stored)] = some t ∧
      t.completed.map Entry.seq = [1] ∧
      Linked rfc3339AutoSi Shared.Audit.firstBytes "" t.completed ∧
      verify rfc3339AutoSi Shared.Audit.firstBytes goSerde t.file = .ok () := by
  constructor
  · obtain ⟨t, hrun, hseq⟩ : ∃ t, goRun [("job-1", .writeError 0), ("job-2", .stored)] = some t ∧
        t.completed.map Shared.Audit.Entry.seq = [1] := ⟨_, rfl, by decide⟩
    obtain ⟨hlinked, hverify⟩ :=
      (failed_appends_verify_of_clean rfc3339AutoSi Shared.Audit.firstBytes goSerde_lawful).1 _ _ t
        Shared.Audit.Chain.nil hrun
    refine ⟨t, hrun, hseq, hlinked, hverify ⟨⟨rfl, Fate.noConfusion⟩, fun s hs => ?_⟩⟩
    obtain rfl := Option.some.inj hs
    refine ⟨⟨trivial, fun _ line hline => ?_⟩, fun _ _ => trivial⟩
    obtain ⟨-, rfl⟩ := Shared.Audit.marshal_eq_some hline
    exact ⟨by decide +kernel, valid_utf8 _, valid_utf8 _, valid_utf8 _⟩
  · obtain ⟨t, hrun, hseq⟩ : ∃ t, rustRun [("job-1", .writeError 0), ("job-2", .stored)] = some t ∧
        t.completed.map Entry.seq = [1] := ⟨_, rfl, by decide⟩
    obtain ⟨hlinked, hverify⟩ :=
      (failed_appends_verify_of_clean rfc3339AutoSi Shared.Audit.firstBytes goSerde_lawful).2 [] _ t
        ⟨trivial, List.forall_mem_nil _⟩ hrun
    exact ⟨t, hrun, hseq, hlinked, hverify ⟨rfl, fun s hs => ⟨trivial, fun _ _ => trivial⟩⟩⟩

/-- A line is written but cannot be synced, or cut off after its first byte, and the next append
succeeds. The next entry is chained to the entry before that line, or stands behind the byte. -/
theorem failed_append_breaks_file :
    (goRun [("job-1", .syncError), ("job-2", .stored)]).map (fun t =>
      (t.completed.map Shared.Audit.Entry.seq,
        (Shared.Audit.verify Shared.Audit.firstBytes t.file).isOk)) = some ([1], false) ∧
    (goRun [("job-1", .writeError 1), ("job-2", .stored)]).map (fun t =>
      (t.completed.map Shared.Audit.Entry.seq,
        (Shared.Audit.verify Shared.Audit.firstBytes t.file).isOk)) = some ([1], false) ∧
    (rustRun [("job-1", .syncError), ("job-2", .stored)]).map (fun t =>
      (t.completed.map Entry.seq,
        (verify rfc3339AutoSi Shared.Audit.firstBytes goSerde t.file).isOk)) = some ([1], false) ∧
    (rustRun [("job-1", .writeError 1), ("job-2", .stored)]).map (fun t =>
      (t.completed.map Entry.seq,
        (verify rfc3339AutoSi Shared.Audit.firstBytes goSerde t.file).isOk)) =
      some ([1], false) := by
  decide +kernel

end PmxAgents.SharedRust.Audit

import PmxAgents.Shared.AuditChain
import PmxAgents.SharedRust.Envelope

/-!
# The audit hash of the Rust agents

A Rust agent hashes the same fields of an entry in the same order as a Go agent. The
texts of the timestamp differ: one library writes three, six or nine digits of a
fraction, the other one drops the zeros at its end. The hashed bytes are the same
exactly when the number of those zeros is a multiple of three.

## Implementation notes

`toRfc3339` is the text of a timestamp with automatic fractions, of another crate;
`fromStr` reads a line as an entry. An entry of both languages is one whose
timestamp is in no leap second.
-/

namespace PmxAgents.SharedRust.Audit

open Lib Lib.Cbor Lib.Json

structure Entry where
  seq : ℕ
  timestamp : DateTime
  jobId : String
  command : String
  step : String
  exit : Int
  durationMs : Int
  prevHash : String
  hash : String

/-- The entry as a Go agent holds it. -/
def Entry.toGo (e : Entry) : Shared.Audit.Entry :=
  ⟨e.seq, ⟨e.timestamp.secs * Shared.second + e.timestamp.nanos, 0⟩, utf8 e.jobId, utf8 e.command,
    utf8 e.step, e.exit, e.durationMs, utf8 e.prevHash, utf8 e.hash⟩

/-- The timestamp is in no leap second, and its year has four digits. -/
structure Entry.Portable (e : Entry) : Prop where
  nanos_lt : e.timestamp.nanos < 10 ^ 9
  year_nonneg : 0 ≤ (Calendar.civilOfDays (e.timestamp.secs / 86400)).year
  year_le : (Calendar.civilOfDays (e.timestamp.secs / 86400)).year ≤ 9999

inductive AuditError where
  | json (line : ℕ)
  | tamper (seq line : ℕ) (expected actual : String)
  deriving DecidableEq, Repr

section Hash
variable (toRfc3339 : DateTime → String)

/-- The bytes that are hashed. -/
def hashInput (prevHash : String) (e : Entry) : Bytes :=
  utf8 prevHash ++ utf8 e.jobId ++ utf8 e.command ++ utf8 e.step ++ decimal e.exit ++
    decimal e.durationMs ++ utf8 (toRfc3339 e.timestamp)

def computeHash (sha256 : Bytes → Bytes) (prevHash : String) (e : Entry) : String :=
  Hex.encode (sha256 (hashInput toRfc3339 prevHash e))

/-- The chain from a hash on; empty lines are passed over. -/
def verifyLines (sha256 : Bytes → Bytes) (fromStr : Bytes → Option Entry) :
    String → ℕ → List Bytes → Except AuditError Unit
  | _, _, [] => .ok ()
  | prevHash, idx, line :: rest =>
      if line = [] then verifyLines sha256 fromStr prevHash (idx + 1) rest
      else
        match fromStr line with
        | none => .error (.json (idx + 1))
        | some e =>
            let expected := computeHash toRfc3339 sha256 prevHash e
            if e.hash ≠ expected then .error (.tamper e.seq (idx + 1) expected e.hash)
            else verifyLines sha256 fromStr e.hash (idx + 1) rest

variable {toRfc3339}

/-! ## The hashed bytes -/

theorem rfc3339_eq_iff {e : Entry} (he : e.Portable) :
    rfc3339AutoSi e.timestamp = Shared.Audit.rfc3339Nano e.toGo.timestamp.instant ↔
      Rfc3339.WholeGroups e.timestamp.nanos := by
  have hnanos := he.nanos_lt
  have hsecs : e.toGo.timestamp.instant / Shared.second = e.timestamp.secs := by
    simp only [Entry.toGo, Shared.second]
    omega
  have hfrac : (e.toGo.timestamp.instant % Shared.second).toNat = e.timestamp.nanos := by
    simp only [Entry.toGo, Shared.second]
    omega
  have hyear := (Rfc3339.yearPadded_eq_yearSigned _).mpr he.year_le
  calc rfc3339AutoSi e.timestamp = Shared.Audit.rfc3339Nano e.toGo.timestamp.instant
      ↔ Rfc3339.text Rfc3339.yearSigned e.timestamp.secs 0 (Rfc3339.fracAutoSi e.timestamp.nanos) =
          Rfc3339.text Rfc3339.yearPadded e.timestamp.secs 0
            (Rfc3339.fracTrimmed e.timestamp.nanos) := by
        rw [rfc3339AutoSi, Shared.Audit.rfc3339Nano, hsecs, hfrac, String.ofList_inj,
          Nat.div_eq_of_lt hnanos, Nat.mod_eq_of_lt hnanos]
    _ ↔ Rfc3339.fracAutoSi e.timestamp.nanos = Rfc3339.fracTrimmed e.timestamp.nanos :=
        Rfc3339.text_eq_iff hyear.symm 0 _ _
    _ ↔ Rfc3339.WholeGroups e.timestamp.nanos :=
        eq_comm.trans (Rfc3339.fracTrimmed_eq_fracAutoSi hnanos)

/-- The same bytes are hashed exactly when the fraction is in groups of three digits. -/
theorem hashInput_eq_iff (htext : ∀ d, toRfc3339 d = rfc3339AutoSi d) (prevHash : String)
    {e : Entry} (he : e.Portable) :
    hashInput toRfc3339 prevHash e = Shared.Audit.hashInput (utf8 prevHash) e.toGo ↔
      Rfc3339.WholeGroups e.timestamp.nanos := by
  rw [← rfc3339_eq_iff he, hashInput, Shared.Audit.hashInput, htext]
  exact (List.append_right_inj _).trans utf8_injective.eq_iff

/-! ## Chains -/

/-- Both languages read the line, as the same entry, and its fraction is in groups of three. -/
structure ReadAlike (fromStr : Bytes → Option Entry) (line : Bytes) (e : Entry) : Prop where
  rust : fromStr line = some e
  go : Shared.Audit.unmarshal line = some e.toGo
  portable : e.Portable
  wholeGroups : Rfc3339.WholeGroups e.timestamp.nanos

theorem computeHash_eq (htext : ∀ d, toRfc3339 d = rfc3339AutoSi d) (sha256 : Bytes → Bytes)
    (prevHash : String) {e : Entry} (he : e.Portable)
    (hgroups : Rfc3339.WholeGroups e.timestamp.nanos) :
    utf8 (computeHash toRfc3339 sha256 prevHash e) =
      Shared.Audit.computeHashWithPrev sha256 (utf8 prevHash) e.toGo := by
  rw [computeHash, Shared.Audit.computeHashWithPrev,
    (hashInput_eq_iff htext prevHash he).mpr hgroups]

/-- Lines that are read alike pass both checks or none. -/
theorem verifyLines_iff (htext : ∀ d, toRfc3339 d = rfc3339AutoSi d) (sha256 : Bytes → Bytes)
    {fromStr : Bytes → Option Entry} {lines : List Bytes}
    (hlines : ∀ line ∈ lines, ∃ e, ReadAlike fromStr line e) (prevHash : String) (idx lineNum : ℕ) :
    verifyLines toRfc3339 sha256 fromStr prevHash idx lines = .ok () ↔
      Shared.Audit.verifyLines sha256 (utf8 prevHash) lineNum lines = .ok () := by
  induction lines generalizing prevHash idx lineNum with
  | nil => exact iff_of_true rfl rfl
  | cons line lines ih =>
      obtain ⟨e, he⟩ := hlines line List.mem_cons_self
      have hne : line ≠ [] := by
        rintro rfl
        have hnone := Shared.Audit.unmarshal_isPrefix (e := e.toGo) List.nil_prefix
          (JsonLines.writeObject_ne_nil _).symm
        cases he.go.symm.trans hnone
      have hhash : e.hash = computeHash toRfc3339 sha256 prevHash e ↔
          e.toGo.hash = Shared.Audit.computeHashWithPrev sha256 (utf8 prevHash) e.toGo := by
        rw [← computeHash_eq htext sha256 prevHash he.portable he.wholeGroups]
        exact utf8_injective.eq_iff.symm
      rw [verifyLines, if_neg hne, he.rust, Shared.Audit.verifyLines, he.go]
      simp only [ne_eq, ← hhash]
      split_ifs
      · exact ih (fun l hl => hlines l (List.mem_cons_of_mem _ hl)) _ _ _
      · exact Iff.rfl

/-- The hashed bytes of the two languages agree on an entry exactly when the zeros at the end of
its nanoseconds come in groups of three, and chains of such entries that both languages read
pass both checks or none. -/
theorem hashes_agree_iff_wholeGroups (htext : ∀ d, toRfc3339 d = rfc3339AutoSi d) :
    (∀ (prevHash : String) (e : Entry), e.Portable →
      (hashInput toRfc3339 prevHash e = Shared.Audit.hashInput (utf8 prevHash) e.toGo ↔
        Rfc3339.WholeGroups e.timestamp.nanos)) ∧
    ∀ (sha256 : Bytes → Bytes) (fromStr : Bytes → Option Entry) (lines : List Bytes),
      (∀ line ∈ lines, ∃ e, ReadAlike fromStr line e) →
      (verifyLines toRfc3339 sha256 fromStr "" 0 lines = .ok () ↔
        Shared.Audit.verifyLines sha256 [] 0 lines = .ok ()) := by
  refine ⟨fun prevHash e he => hashInput_eq_iff htext prevHash he, ?_⟩
  intro sha256 fromStr lines hlines
  exact verifyLines_iff htext sha256 hlines "" 0 0

end Hash

/-- An entry of the first second of the epoch. -/
def entryAt (nanos : ℕ) (h : nanos < 10 ^ 9) : Entry :=
  ⟨1, ⟨0, nanos, by omega, by omega, by omega⟩, "job-1", "status", "run", 0, 12, "", ""⟩

theorem portable_entryAt (nanos : ℕ) (h : nanos < 10 ^ 9) : (entryAt nanos h).Portable :=
  ⟨h, (by decide : 0 ≤ (Calendar.civilOfDays (0 / 86400)).year),
    (by decide : (Calendar.civilOfDays (0 / 86400)).year ≤ 9999)⟩

/-- Six digits are written by both. -/
theorem hashes_agree_micros :
    hashInput rfc3339AutoSi "" (entryAt 123456000 (by decide)) =
      Shared.Audit.hashInput (utf8 "") (entryAt 123456000 (by decide)).toGo :=
  ((hashes_agree_iff_wholeGroups fun _ => rfl).1 "" _ (portable_entryAt _ _)).mpr (by decide)

/-- A tenth of a second is written with three digits here and with one there. -/
theorem hashes_differ_tenth :
    rfc3339AutoSi (entryAt 100000000 (by decide)).timestamp = "1970-01-01T00:00:00.100Z" ∧
      Shared.Audit.rfc3339Nano (entryAt 100000000 (by decide)).toGo.timestamp.instant =
        "1970-01-01T00:00:00.1Z" ∧
      hashInput rfc3339AutoSi "" (entryAt 100000000 (by decide)) ≠
        Shared.Audit.hashInput (utf8 "") (entryAt 100000000 (by decide)).toGo := by
  decide

end PmxAgents.SharedRust.Audit

import PmxAgents.Lib.AppendLog
import PmxAgents.Shared.AuditChain

/-!
# Appends that fail on an open audit log

`Append` of the Go agents advances the head of the chain only after the line is written
and synced. The entries whose append returned `nil` are therefore chained to each other
whatever fails. The file need not verify: a write that fails leaves what it has written,
a sync that fails leaves the whole line, and the next entry stands behind it, chained to
the entry before.
-/

namespace PmxAgents.Shared.Audit

open Lib Lib.Cbor Lib.Json Lib.JsonLines Lib.Runs Lib.Scanner Lib.AppendLog

section Failures
variable (sha256 : Bytes → Bytes)

/-- `Append` of a request at a clock reading. -/
def writer : Writer Log (Entry × Time) Entry where
  stamp l request := l.stamped sha256 request.1 request.2
  marshal := marshal
  remember e := ⟨e.hash, e.seq⟩

variable {sha256}

theorem memoryOf_writer (l : Log) (es : List Entry) :
    (memoryOf (writer sha256) l es).head = lastHash l.head es := by
  rw [lastHash_eq, memoryOf]
  cases es.getLast? <;> rfl

theorem linked_concat {prevHash : Bytes} {es : List Entry} {e : Entry} :
    Linked sha256 prevHash (es ++ [e]) ↔
      Linked sha256 prevHash es ∧ e.hash = computeHashWithPrev sha256 (lastHash prevHash es) e := by
  induction es generalizing prevHash with
  | nil => simp [Linked, lastHash]
  | cons a es ih => rw [List.cons_append, Linked, ih, Linked, lastHash, and_assoc]

/-- Entries that are derived from each other are chained. -/
theorem linked_of_derived {l : Log} {es : List Entry} (h : Derived (writer sha256) l es) :
    Linked sha256 l.head es := by
  induction h with
  | nil => trivial
  | @concat es e request derived stamp ih =>
      refine linked_concat.mpr ⟨ih, ?_⟩
      rw [← memoryOf_writer, stamp]
      exact stamped_hash _ _ _

/-- Readable entries that are derived from each other continue a chain. -/
theorem chain_append {es es' : List Entry} (hes : Chain sha256 es)
    (h : Derived (writer sha256) (logOf es) es') (hreadable : ∀ e ∈ es', Readable e) :
    Chain sha256 (es ++ es') := by
  induction h with
  | nil => rwa [List.append_nil]
  | @concat es' e request derived stamp ih =>
      obtain ⟨hreadable, hlast⟩ := List.forall_mem_append.mp hreadable
      have hmemory : memoryOf (writer sha256) (logOf es) es' = logOf (es ++ es') := by
        cases hlast' : es'.getLast? <;> simp [memoryOf, logOf, hlast', writer]
      rw [hmemory] at stamp
      rw [← List.append_assoc]
      refine (ih hreadable).concat (hlast e (by simp)) ?_ ?_
      · rw [stamp]
        rfl
      · rw [stamp]
        exact stamped_hash _ _ _

theorem fileOf_writer {es : List Entry} (h : ∀ e ∈ es, Readable e) :
    AppendLog.fileOf (writer sha256) es = fileOf es := by
  induction es with
  | nil => rfl
  | cons e es ih =>
      obtain ⟨he, hes⟩ := List.forall_mem_cons.mp h
      have hmarshal : (writer sha256).marshal e = some e.line := if_pos he.valid
      rw [fileOf, List.map_cons, linesOf, List.flatMap_cons, ← linesOf, ← fileOf, ← ih hes,
        AppendLog.fileOf, List.flatMap_cons, hmarshal]
      rfl

/-- A file that holds the completed entries behind a chain verifies. -/
theorem verify_of_whole {es : List Entry} (hes : Chain sha256 es) {s : AppendLog.State Log Entry}
    (h : Whole (writer sha256) (logOf es) (fileOf es) Readable s) :
    verify sha256 s.file = .ok () := by
  have hfile : s.file = fileOf (es ++ s.completed) := by
    rw [h.file, fileOf_writer h.good, fileOf, fileOf, fileOf, List.map_append, linesOf_append]
  rw [hfile]
  exact (chain_append hes h.inOrder.derived h.good).verify_eq

/-- A failed append leaves no byte behind, and one that succeeds writes a line that fits, with
strings that are valid. -/
def CleanCall (sha256 : Bytes → Bytes) (s : AppendLog.State Log Entry)
    (call : (Entry × Time) × Fate) : Prop :=
  LeavesNothing call.2 ∧ (call.2 = .stored →
    ∀ line, marshal (s.memory.stamped sha256 call.1.1 call.1.2) = some line →
      Fits fileBytes line ∧ Valid call.1.1.jobID ∧ Valid call.1.1.command ∧ Valid call.1.1.step)

theorem valid_memory_head {es : List Entry} (hes : Chain sha256 es) {s : AppendLog.State Log Entry}
    (h : InOrder (writer sha256) (logOf es) s) : Valid s.memory.head := by
  rw [h.memory]
  generalize s.completed = completed, h.derived = derived
  cases derived with
  | nil => exact hes.valid_head
  | @concat es' e request _ stamp =>
      rw [memoryOf_concat, stamp]
      exact valid_computeHash _

theorem clean_of_cleanCall {es : List Entry} (hes : Chain sha256 es)
    {s : AppendLog.State Log Entry} (h : InOrder (writer sha256) (logOf es) s)
    {call : (Entry × Time) × Fate} (hclean : CleanCall sha256 s call) :
    AppendLog.Clean (writer sha256) Readable s call := by
  refine ⟨hclean.1, fun hstored hsome => ?_⟩
  obtain ⟨line, hline⟩ := Option.isSome_iff_exists.mp hsome
  obtain ⟨hfits, hstrings⟩ := hclean.2 hstored line hline
  obtain ⟨hvalid, rfl⟩ := marshal_eq_some hline
  exact ⟨hvalid, (sanitize_stamped_iff (valid_memory_head hes h)).mpr hstrings, hfits⟩

/-- A run of clean calls on a log that was opened on a chain leaves a file that verifies. -/
theorem verify_of_cleanCalls {es : List Entry} (hes : Chain sha256 es)
    {calls : List ((Entry × Time) × Fate)} {t : AppendLog.State Log Entry}
    (hclean : Admits (AppendLog.step (writer sha256)) (CleanCall sha256)
      (AppendLog.State.opened (fileOf es) (logOf es)) calls)
    (hrun : exec (AppendLog.step (writer sha256))
      (AppendLog.State.opened (fileOf es) (logOf es)) calls = some t) :
    verify sha256 t.file = .ok () := by
  have hopened : InOrder (writer sha256) (logOf es)
      (AppendLog.State.opened (fileOf es) (logOf es)) := inOrder_opened _
  have hadmits : Admits (AppendLog.step (writer sha256)) (AppendLog.Clean (writer sha256) Readable)
      (AppendLog.State.opened (fileOf es) (logOf es)) calls :=
    admits_of_invariant (fun _ _ _ hs _ ht => hs.step ht)
      (fun _ _ hs hok => clean_of_cleanCall hes hs hok) hopened hclean
  exact verify_of_whole hes (whole_of_exec hadmits hrun)

end Failures

end PmxAgents.Shared.Audit

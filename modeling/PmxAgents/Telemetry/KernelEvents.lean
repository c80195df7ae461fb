import Mathlib.Algebra.Group.Int.Defs
import Mathlib.Algebra.GroupWithZero.Nat
import Mathlib.Data.List.Infix
import PmxAgents.Lib.Runs
import PmxAgents.Lib.Text

/-!
# Kernel events

The collector opens the log of the kernel, reads its records one by one, and reports those that
tell of a lack of memory, of an error of a disk, or of a link. Nothing is kept between two calls:
every call opens the log anew and reads it from the oldest record on. The time of an event is
computed from the microseconds since the start of the host that the record begins with.

## Implementation notes

A record is the text of one read. The kernel writes everything outside of ASCII as an escape,
so that a character is a byte. The clock is read at each line with a message, and the context
can be done before any read; both are told for the number of the record in the log. Times are
nanoseconds.
-/

namespace PmxAgents.Telemetry.KernelEvents

open Lib

abbrev Record := List Char

structure Metric where
  name : String
  value : ℕ
  timestamp : ℤ
  eventType : String
  message : List Char
  deriving DecidableEq, Repr

/-! ## Patterns -/

def has (needle : String) (text : List Char) : Bool := decide (needle.toList <:+: text)

/-- The text has a place where the first part stands before what is told. -/
def followedBy (first : String) (next : List Char → Bool) (text : List Char) : Bool :=
  text.tails.any fun s => first.toList.isPrefixOf s && next (s.drop first.length)

def startsWith (first : String) (text : List Char) : Bool := first.toList.isPrefixOf text

def oomKiller : List Char → Bool :=
  followedBy "oom" fun s =>
    startsWith "killer" s || startsWith "_killer" s || startsWith "-killer" s

def ioError (text : List Char) : Bool :=
  has "i/o error" text || has "io error" text || has "ext4-fs error" text ||
    followedBy "xfs" (has "error") text

def upOrDown (s : List Char) : Bool := startsWith "up" s || startsWith "down" s

def digitThenError (s : List Char) : Bool :=
  match s with
  | [] => false
  | c :: rest => c.isDigit && has "error" rest

def busError (text : List Char) : Bool :=
  followedBy "scsi" digitThenError text || followedBy "ata" digitThenError text

/-- The patterns on a text without case, and the kinds of their events. -/
def eventPatterns : List ((List Char → Bool) × String) :=
  [(oomKiller, "oom"), (has "out of memory", "oom"), (ioError, "io_error"),
    (followedBy "link is " upOrDown, "link_state"),
    (followedBy "nic link is " upOrDown, "link_state"), (busError, "io_error")]

/-- The kind of the event that a message tells of. -/
def eventOf (msg : List Char) : Option String :=
  if msg = [] then none
  else (eventPatterns.find? fun p => p.1 (msg.map Casing.fold)).map Prod.snd

/-! ## Records -/

def parseKmsgMessage (line : List Char) : List Char := (line.dropWhile (· ≠ ';')).drop 1

def parseInt64 (s : List Char) : Option ℤ :=
  (Numeral.signed s).filter fun n => -2 ^ 63 ≤ n ∧ n < 2 ^ 63

/-- The microseconds since the start of the host. -/
def kernelStamp (line : List Char) : Option ℤ :=
  (Text.split ',' line)[2]?.bind fun part => parseInt64 (Text.trim part)

def parseKmsgTimestamp (now : ℤ) (line : List Char) : ℤ :=
  match kernelStamp line with
  | some us => now + Int.bmod (-us * 1000) (2 ^ 64)
  | none => now

def truncate (s : List Char) (n : ℕ) : List Char := if s.length ≤ n then s else s.take n

def collectLine (now : ℤ) (line : List Char) : Option Metric :=
  (eventOf (parseKmsgMessage line)).map fun eventType =>
    ⟨"host_kernel_event", 1, parseKmsgTimestamp now line, eventType,
      truncate (parseKmsgMessage line) 120⟩

/-! ## Collecting -/

def maxLines : ℕ := 4096

def bufferSize : ℕ := 8192

/-- The lines of one read: the lines counted so far, and the events found. -/
def scanLines (clock : ℕ → ℤ) : ℕ → ℕ → List (List Char) → ℕ × List Metric
  | _, lineCount, [] => (lineCount, [])
  | i, lineCount, line :: rest =>
      if line = [] then scanLines clock (i + 1) lineCount rest
      else if maxLines < lineCount + 1 then (lineCount + 1, [])
      else
        let found := scanLines clock (i + 1) (lineCount + 1) rest
        (found.1, (collectLine (clock i) line).toList ++ found.2)

/-- A call: what was printed since the last one, how much of the log is lost by now, the clock for
each record and line, and whether the context is done before the read of a record. -/
structure Call where
  appended : List Record
  lost : ℕ
  clock : ℕ → ℕ → ℤ
  done : ℕ → Bool

/-- The events of the records from one on, each with the number of its record. -/
def readRecords (call : Call) : ℕ → ℕ → List Record → List (ℕ × Metric)
  | _, _, [] => []
  | k, lineCount, r :: rest =>
      if lineCount < maxLines ∧ ¬ call.done k ∧ r ≠ [] ∧ r.length ≤ bufferSize then
        let found := scanLines (call.clock k) 0 lineCount (Text.split '\n' r)
        found.2.map (k, ·) ++ readRecords call (k + 1) found.1 rest
      else []

def collect (call : Call) (log : List Record) : List (ℕ × Metric) :=
  readRecords call call.lost 0 (log.drop call.lost)

/-! ## Runs -/

/-- Everything that was printed, and what each call reported. -/
structure State where
  log : List Record
  reports : List (List (ℕ × Metric))

def State.init : State := ⟨[], []⟩

def step (s : State) (call : Call) : Option State :=
  some ⟨s.log ++ call.appended, s.reports ++ [collect call (s.log ++ call.appended)]⟩

def firstLine (r : Record) : List Char := (Text.split '\n' r).headD []

/-- The record tells of an event. -/
def Matches (r : Record) : Prop := (eventOf (parseKmsgMessage (firstLine r))).isSome

instance (r : Record) : Decidable (Matches r) := inferInstanceAs (Decidable (_ = true))

/-- The reports of a record in all calls. -/
def State.reportsOf (s : State) (k : ℕ) : List (ℕ × Metric) :=
  s.reports.flatten.filter fun e => e.1 = k

/-- Every event is reported once. -/
def State.Once (s : State) : Prop :=
  ∀ k r, s.log[k]? = some r → Matches r → (s.reportsOf k).length = 1

/-- In each call, a later time of the kernel is a later time of the metric. -/
def State.InOrder (s : State) : Prop :=
  ∀ report ∈ s.reports, ∀ e ∈ report, ∀ e' ∈ report, ∀ r r' a b, s.log[e.1]? = some r →
    s.log[e'.1]? = some r' → kernelStamp (firstLine r) = some a →
      kernelStamp (firstLine r') = some b →
    a < b → e.2.timestamp < e'.2.timestamp

/-- A call that reads everything, finds no event of an earlier call, and whose clock gains more
between two events than lies between them. -/
structure Drained (s : State) (call : Call) : Prop where
  readable : ∀ r ∈ (s.log ++ call.appended).drop call.lost, r ≠ [] ∧ r.length ≤ bufferSize
  lines : ∀ r ∈ (s.log ++ call.appended).drop call.lost, ∀ line ∈ (Text.split '\n' r).tail,
    eventOf (parseKmsgMessage line) = none
  fits : (((s.log ++ call.appended).drop call.lost).flatMap (Text.split '\n')).countP (· ≠ []) ≤
    maxLines
  undone : ∀ k, call.done k = false
  fresh : ∀ r ∈ s.log.drop call.lost, ¬ Matches r
  kept : ∀ r ∈ call.appended.take (call.lost - s.log.length), ¬ Matches r
  clock : ∀ i j r r' a b, call.lost ≤ i → call.lost ≤ j → (s.log ++ call.appended)[i]? = some r →
    (s.log ++ call.appended)[j]? = some r' → Matches r → Matches r' →
    kernelStamp (firstLine r) = some a → kernelStamp (firstLine r') = some b → a < b →
    0 ≤ a ∧ b * 1000 < 2 ^ 63 ∧ call.clock i 0 + (b - a) * 1000 < call.clock j 0

/-! ## A call that reads everything -/

section Reading
variable {call : Call} {clock : ℕ → ℤ} {k n : ℕ} {log : List Record} {r : Record}

theorem collectLine_eq_none_iff {now : ℤ} {line : List Char} :
    collectLine now line = none ↔ eventOf (parseKmsgMessage line) = none := Option.map_eq_none_iff

theorem collectLine_nil (now : ℤ) : collectLine now [] = none := rfl

theorem scanLines_of_none {i : ℕ} {lines : List (List Char)}
    (hnone : ∀ line ∈ lines, eventOf (parseKmsgMessage line) = none)
    (hfits : n + lines.countP (· ≠ []) ≤ maxLines) :
    scanLines clock i n lines = (n + lines.countP (· ≠ []), []) := by
  induction lines generalizing i n with
  | nil => rfl
  | cons line rest ih =>
      obtain ⟨hline, hrest⟩ := List.forall_mem_cons.mp hnone
      rw [scanLines]
      by_cases hempty : line = []
      · rw [List.countP_cons_of_neg (by simp [hempty])] at hfits ⊢
        rw [if_pos hempty, ih hrest hfits]
      · rw [List.countP_cons_of_pos (by simp [hempty])] at hfits ⊢
        have hcount : n + 1 + rest.countP (· ≠ []) = n + (rest.countP (· ≠ []) + 1) := by omega
        rw [if_neg hempty, if_neg (by omega), ih hrest (by omega),
          collectLine_eq_none_iff.mpr hline, hcount]
        rfl

theorem split_eq_firstLine_cons (r : Record) :
    Text.split '\n' r = firstLine r :: (Text.split '\n' r).tail := by
  rw [firstLine]
  cases hsplit : Text.split '\n' r with
  | nil => exact absurd hsplit (Text.split_ne_nil _ _)
  | cons line rest => rfl

/-- Of a record whose first line alone can tell of an event, the first line is reported. -/
theorem scanLines_record (hlines : ∀ line ∈ (Text.split '\n' r).tail,
    eventOf (parseKmsgMessage line) = none)
    (hfits : n + (Text.split '\n' r).countP (· ≠ []) ≤ maxLines) :
    scanLines clock 0 n (Text.split '\n' r) =
      (n + (Text.split '\n' r).countP (· ≠ []), (collectLine (clock 0) (firstLine r)).toList) := by
  rw [split_eq_firstLine_cons r] at hfits ⊢
  rw [scanLines]
  by_cases hempty : firstLine r = []
  · rw [List.countP_cons_of_neg (by simp [hempty])] at hfits ⊢
    rw [if_pos hempty, scanLines_of_none hlines hfits, hempty]
    rfl
  · rw [List.countP_cons_of_pos (by simp [hempty])] at hfits ⊢
    have hcount : n + 1 + (Text.split '\n' r).tail.countP (· ≠ []) =
        n + ((Text.split '\n' r).tail.countP (· ≠ []) + 1) := by omega
    rw [if_neg hempty, if_neg (by omega), scanLines_of_none hlines (by omega), hcount]
    dsimp only
    rw [List.append_nil]

/-- The events of records, each with the number of its record. -/
def events (call : Call) (k : ℕ) (log : List Record) : List (ℕ × Metric) :=
  (log.zipIdx k).filterMap fun e => (collectLine (call.clock e.2 0) (firstLine e.1)).map (e.2, ·)

theorem events_cons (r : Record) (rest : List Record) :
    events call k (r :: rest) = ((collectLine (call.clock k 0) (firstLine r)).map (k, ·)).toList ++
      events call (k + 1) rest := by
  rw [events, List.zipIdx_cons, List.filterMap_cons]
  cases (collectLine (call.clock k 0) (firstLine r)).map (k, ·) <;> rfl

/-- Where no line has a character there is no event. -/
theorem events_of_blank (h : (log.flatMap (Text.split '\n')).countP (· ≠ []) = 0) :
    events call k log = [] := by
  induction log generalizing k with
  | nil => rfl
  | cons r rest ih =>
      rw [List.flatMap_cons, List.countP_append] at h
      have hfirst : firstLine r = [] := by
        have hcount : (Text.split '\n' r).countP (· ≠ []) = 0 := by omega
        rw [split_eq_firstLine_cons r, List.countP_eq_zero] at hcount
        simpa using hcount _ List.mem_cons_self
      rw [events_cons, ih (by omega), hfirst, collectLine_nil]
      rfl

theorem readRecords_eq (hreadable : ∀ r ∈ log, r ≠ [] ∧ r.length ≤ bufferSize)
    (hlines : ∀ r ∈ log, ∀ line ∈ (Text.split '\n' r).tail, eventOf (parseKmsgMessage line) = none)
    (hfits : n + (log.flatMap (Text.split '\n')).countP (· ≠ []) ≤ maxLines)
    (hundone : ∀ k, call.done k = false) : readRecords call k n log = events call k log := by
  induction log generalizing k n with
  | nil => rfl
  | cons r rest ih =>
      obtain ⟨⟨hne, hlength⟩, hreadable'⟩ := List.forall_mem_cons.mp hreadable
      obtain ⟨hrecord, hlines'⟩ := List.forall_mem_cons.mp hlines
      by_cases hfull : n < maxLines
      · rw [List.flatMap_cons, List.countP_append] at hfits
        rw [readRecords, if_pos ⟨hfull, by simp [hundone k], hne, hlength⟩, events_cons,
          scanLines_record hrecord (by omega)]
        dsimp only
        rw [ih hreadable' hlines' (by omega)]
        cases collectLine (call.clock k 0) (firstLine r) <;> rfl
      · rw [readRecords, if_neg (fun h => hfull h.1), events_of_blank (by omega)]

/-! ### Events and their numbers -/

theorem mem_events {e : ℕ × Metric} : e ∈ events call k log ↔
    ∃ i r, log[i]? = some r ∧ e.1 = k + i ∧
      collectLine (call.clock e.1 0) (firstLine r) = some e.2 := by
  rw [events, List.mem_filterMap]
  constructor
  · rintro ⟨⟨r, j⟩, hmem, hmap⟩
    obtain ⟨m, hm, rfl⟩ := Option.map_eq_some_iff.mp hmap
    obtain ⟨hle, hget⟩ := List.mem_zipIdx_iff_le_and_getElem?_sub.mp hmem
    exact ⟨j - k, r, hget, by omega, hm⟩
  · rintro ⟨i, r, hget, heq, hm⟩
    refine ⟨(r, e.1), List.mem_zipIdx_iff_le_and_getElem?_sub.mpr ⟨by omega, ?_⟩, ?_⟩
    · rw [heq, Nat.add_sub_cancel_left]
      exact hget
    · rw [hm]
      rfl

theorem matches_iff (now : ℤ) : Matches r ↔ (collectLine now (firstLine r)).isSome := by
  rw [Matches, collectLine, Option.isSome_map]

/-- A record of the log is reported once if it tells of an event, and else not. -/
theorem length_filter_events (log : List Record) (i j : ℕ) :
    ((events call i log).filter fun e => e.1 = j).length =
      if i ≤ j ∧ ∃ r ∈ log[j - i]?, Matches r then 1 else 0 := by
  induction log generalizing i with
  | nil =>
      rw [if_neg (by simp)]
      rfl
  | cons r rest ih =>
      have hother : i ≠ j → (((collectLine (call.clock i 0) (firstLine r)).map
          (i, ·)).toList.filter fun e => e.1 = j) = [] := by
        intro hne
        cases collectLine (call.clock i 0) (firstLine r) with
        | none => rfl
        | some m => exact List.filter_cons_of_neg (by simpa using hne)
      rw [events_cons, List.filter_append, List.length_append, ih]
      rcases Nat.lt_trichotomy i j with hlt | rfl | hgt
      · have hget : (r :: rest)[j - i]? = rest[j - (i + 1)]? := by
          rw [show j - i = j - (i + 1) + 1 by omega, List.getElem?_cons_succ]
        rw [hother hlt.ne, hget]
        simp only [List.length_nil, Nat.zero_add, hlt.le, Nat.succ_le_of_lt hlt]
      · rw [if_neg (show ¬ (i + 1 ≤ i ∧ _) from fun h => by omega), Nat.sub_self,
          List.getElem?_cons_zero]
        by_cases hmatch : Matches r
        · obtain ⟨m, hm⟩ := Option.isSome_iff_exists.mp ((matches_iff (call.clock i 0)).mp hmatch)
          rw [if_pos ⟨le_rfl, r, rfl, hmatch⟩, hm]
          simp
        · have hnone : collectLine (call.clock i 0) (firstLine r) = none :=
            Option.not_isSome_iff_eq_none.mp fun h => hmatch ((matches_iff _).mpr h)
          rw [if_neg (by simpa using hmatch), hnone]
          rfl
      · rw [hother hgt.ne', if_neg fun h => by omega, if_neg fun h => by omega]
        rfl

end Reading

/-! ## Runs of calls that read everything -/

section Runs
variable {s t : State} {call : Call}

theorem Drained.collect_eq (h : Drained s call) : collect call (s.log ++ call.appended) =
    events call call.lost ((s.log ++ call.appended).drop call.lost) :=
  readRecords_eq h.readable h.lines (by simpa using h.fits) h.undone

/-- Every report is of a record of the log. -/
def State.Known (s : State) : Prop := ∀ e ∈ s.reports.flatten, e.1 < s.log.length

theorem step_eq (h : step s call = some t) : t = ⟨s.log ++ call.appended,
    s.reports ++ [collect call (s.log ++ call.appended)]⟩ := (Option.some.inj h).symm

theorem known_step (hs : s.Known) (hok : Drained s call) (h : step s call = some t) : t.Known := by
  rw [step_eq h]
  intro e he
  rw [List.flatten_append, List.flatten_singleton, List.mem_append, hok.collect_eq] at he
  dsimp only
  rcases he with he | he
  · have hlt := hs e he
    rw [List.length_append]
    omega
  · obtain ⟨i, r, hget, heq, -⟩ := mem_events.mp he
    rw [List.getElem?_drop] at hget
    rw [heq]
    exact (List.getElem?_eq_some_iff.mp hget).1

theorem reportsOf_step (hok : Drained s call) (h : step s call = some t) (k : ℕ) :
    (t.reportsOf k).length = (s.reportsOf k).length +
      if call.lost ≤ k ∧ ∃ r ∈ (s.log ++ call.appended)[k]?, Matches r then 1 else 0 := by
  rw [step_eq h, State.reportsOf, State.reportsOf, List.flatten_append, List.flatten_singleton,
    List.filter_append, List.length_append, hok.collect_eq, length_filter_events]
  congr 1
  by_cases hle : call.lost ≤ k
  · rw [List.getElem?_drop, Nat.add_sub_cancel' hle]
  · rw [if_neg fun h => hle h.1, if_neg fun h => hle h.1]

theorem once_step (hs : s.Once) (hknown : s.Known) (hok : Drained s call)
    (h : step s call = some t) :
    t.Once := by
  intro k r hget hmatch
  rw [step_eq h] at hget
  dsimp only at hget
  rw [reportsOf_step hok h k]
  by_cases hold : k < s.log.length
  · -- An old record was reported before, and is lost or tells of nothing now.
    rw [List.getElem?_append_left hold] at hget
    rw [hs k r hget hmatch, if_neg]
    rintro ⟨hle, -, -, -⟩
    have hmem : r ∈ s.log.drop call.lost := by
      refine List.mem_of_getElem? (i := k - call.lost) ?_
      rw [List.getElem?_drop, Nat.add_sub_cancel' hle, hget]
    exact hok.fresh r hmem hmatch
  · have hnone : s.reportsOf k = [] := by
      refine List.filter_eq_nil_iff.mpr fun e he => ?_
      have hlt := hknown e he
      simp only [decide_eq_true_eq]
      omega
    have hle : call.lost ≤ k := by
      by_contra hgt
      rw [List.getElem?_append_right (by omega)] at hget
      refine hok.kept r (List.mem_of_getElem? (i := k - s.log.length) ?_) hmatch
      rw [List.getElem?_take_of_lt (by omega), hget]
    rw [hnone, if_pos ⟨hle, r, hget, hmatch⟩]
    rfl

theorem parseKmsgTimestamp_of_stamp {now a : ℤ} {line : List Char}
    (hstamp : kernelStamp line = some a)
    (hpos : 0 ≤ a) (hmax : a * 1000 < 2 ^ 63) : parseKmsgTimestamp now line = now - a * 1000 := by
  have hmod : Int.bmod (-a * 1000) (2 ^ 64) = -a * 1000 := Int.bmod_eq_of_le (by omega) (by omega)
  rw [parseKmsgTimestamp, hstamp]
  dsimp only
  rw [hmod]
  omega

theorem timestamp_of_collectLine {now : ℤ} {line : List Char} {m : Metric}
    (h : collectLine now line = some m) :
    m.timestamp = parseKmsgTimestamp now line := by
  obtain ⟨_, -, rfl⟩ := Option.map_eq_some_iff.mp h
  rfl

theorem inOrder_step (hs : s.InOrder) (hknown : s.Known) (hok : Drained s call)
    (h : step s call = some t) :
    t.InOrder := by
  rw [step_eq h]
  intro report hreport e he e' he' r r' a b hget hget' ha hb hab
  rw [List.mem_append, List.mem_singleton] at hreport
  dsimp only at hget hget'
  rcases hreport with hold | rfl
  · -- The records of an old report stand where they stood.
    have hlt : ∀ e ∈ report, e.1 < s.log.length :=
      fun e he => hknown e (List.mem_flatten.mpr ⟨report, hold, he⟩)
    rw [List.getElem?_append_left (hlt e he)] at hget
    rw [List.getElem?_append_left (hlt e' he')] at hget'
    exact hs report hold e he e' he' r r' a b hget hget' ha hb hab
  · rw [hok.collect_eq] at he he'
    have hrecord : ∀ {e : ℕ × Metric} {r : Record},
        e ∈ events call call.lost ((s.log ++ call.appended).drop call.lost) →
        (s.log ++ call.appended)[e.1]? = some r →
        call.lost ≤ e.1 ∧ collectLine (call.clock e.1 0) (firstLine r) = some e.2 := by
      intro e r he hget
      obtain ⟨i, r', hget', heq, hm⟩ := mem_events.mp he
      rw [List.getElem?_drop, ← heq, hget] at hget'
      exact ⟨by omega, Option.some.inj hget' ▸ hm⟩
    obtain ⟨hle, hm⟩ := hrecord he hget
    obtain ⟨hle', hm'⟩ := hrecord he' hget'
    have hmatch : Matches r := (matches_iff _).mpr (by rw [hm]; rfl)
    have hmatch' : Matches r' := (matches_iff _).mpr (by rw [hm']; rfl)
    obtain ⟨hpos, hmax, hclock⟩ := hok.clock e.1 e'.1 r r' a b hle hle' hget hget' hmatch hmatch' ha
      hb hab
    rw [timestamp_of_collectLine hm, timestamp_of_collectLine hm',
      parseKmsgTimestamp_of_stamp ha hpos (by omega),
      parseKmsgTimestamp_of_stamp hb (by omega) hmax]
    omega

/-- In every run of calls that read everything, find no event of an earlier call, and have a clock
that gains more between two events than lies between them, every event is reported once and in
order. -/
theorem events_once_and_in_order {calls : List Call} (hok : Runs.Admits step Drained .init calls)
    (hrun : Runs.exec step .init calls = some s) : s.Once ∧ s.InOrder := by
  have hinv : ∀ s call t, s.Known ∧ s.Once ∧ s.InOrder → Drained s call → step s call = some t →
      t.Known ∧ t.Once ∧ t.InOrder := by
    rintro s call t ⟨hknown, honce, horder⟩ hok hstep
    exact ⟨known_step hknown hok hstep, once_step honce hknown hok hstep,
      inOrder_step horder hknown hok hstep⟩
  have hinit : State.init.Known ∧ State.init.Once ∧ State.init.InOrder := by
    refine ⟨fun e he => ?_, fun k r hget => ?_, fun report hreport => ?_⟩
    · cases he
    · cases hget
    · cases hreport
  exact (Runs.exec_invariant hinv hinit hok hrun).2

end Runs

/-! ### Two events, and a second call -/

def shortage : Record := "3,7,100,-;Out of memory".toList

def linkDown : Record := "6,8,200,-;Link is Down".toList

/-- A call with a clock that stands still. -/
def atOnce (appended : List Record) : Call := ⟨appended, 0, fun _ _ => 1000000, fun _ => false⟩

def shortageMetric : Metric := ⟨"host_kernel_event", 1, 900000, "oom", "Out of memory".toList⟩

def linkMetric : Metric := ⟨"host_kernel_event", 1, 800000, "link_state", "Link is Down".toList⟩

/-- The second call reports both events again, and the later one has the earlier time. -/
theorem twoCalls_not_once :
    ∃ s, Runs.exec step .init [atOnce [shortage, linkDown], atOnce []] = some s ∧ ¬ s.Once ∧
      ¬ s.InOrder := by
  refine ⟨_, rfl, fun honce => ?_, fun horder => ?_⟩
  · have hone := honce 0 shortage rfl (by decide)
    exact absurd hone (by decide)
  · have hlt := horder [(0, shortageMetric), (1, linkMetric)] List.mem_cons_self (0, shortageMetric)
      List.mem_cons_self (1, linkMetric) (List.mem_cons_of_mem _ List.mem_cons_self) shortage
        linkDown 100 200
      rfl rfl (by decide) (by decide) (by decide)
    exact absurd hlt (by decide)

/-- The clock is read once for each record. -/
theorem clock_of_zipIdx {log : List Record} {lost : ℕ} {clock : ℕ → ℕ → ℤ}
    (h : ∀ e ∈ log.zipIdx, ∀ e' ∈ log.zipIdx, ∀ a ∈ kernelStamp (firstLine e.1),
      ∀ b ∈ kernelStamp (firstLine e'.1), a < b →
        0 ≤ a ∧ b * 1000 < 2 ^ 63 ∧ clock e.2 0 + (b - a) * 1000 < clock e'.2 0) :
    ∀ i j r r' a b, lost ≤ i → lost ≤ j → log[i]? = some r → log[j]? = some r' → Matches r →
      Matches r' → kernelStamp (firstLine r) = some a → kernelStamp (firstLine r') = some b →
      a < b → 0 ≤ a ∧ b * 1000 < 2 ^ 63 ∧ clock i 0 + (b - a) * 1000 < clock j 0 := by
  intro i j r r' a b _ _ hi hj _ _ ha hb hab
  exact h (r, i) (List.mk_mem_zipIdx_iff_getElem?.mpr hi) (r', j)
    (List.mk_mem_zipIdx_iff_getElem?.mpr hj) a ha b hb hab

def diskError : Record := "3,9,300,-;sda: I/O error".toList

/-- A call with a clock that gains twice as much between the records as lies between them. -/
def ticking (appended : List Record) (lost : ℕ) : Call :=
  ⟨appended, lost, fun k _ => k * 200000, fun _ => false⟩

/-- Two events are lost before the third one is printed. -/
def lostCalls : List Call := [ticking [shortage, linkDown] 0, ticking [diskError] 2]

theorem events_once_and_in_order_lost :
    ∃ s, Runs.exec step .init lostCalls = some s ∧ s.reports.map List.length = [2, 1] ∧ s.Once ∧
      s.InOrder := by
  have hok : Runs.Admits step Drained .init lostCalls := by
    refine Runs.admits_cons ?_ rfl (Runs.admits_cons ?_ rfl trivial)
    · exact ⟨by decide +kernel, by decide +kernel, by decide +kernel,
        fun _ => rfl, by decide +kernel,
        by decide +kernel, clock_of_zipIdx (by decide +kernel)⟩
    · exact ⟨by decide +kernel, by decide +kernel, by decide +kernel,
        fun _ => rfl, by decide +kernel,
        by decide +kernel, clock_of_zipIdx (by decide +kernel)⟩
  exact ⟨_, rfl, by decide +kernel, events_once_and_in_order hok rfl⟩

end PmxAgents.Telemetry.KernelEvents

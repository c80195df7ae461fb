import PmxAgents.Lib.Runs
import PmxAgents.Shared.Audit

/-!
# The audit log across crashes

A log file grows by appends, by appends that are cut off, and is opened again at any
time. Opening passes over a line that was cut off but leaves it in the file: the
check of the chain fails on it, and the next entry is written behind it, on the same
line. The log therefore stays intact exactly as long as no append is cut off after
its first byte, every line fits into the buffer of the scanner, and every string is
valid UTF-8.

## Implementation notes

The state carries the entries whose append completed, as the log wrote them. An
append whose entry has no JSON text fails before it writes. A process that ends
between two operations is an operation `open` at the next start.
-/

namespace PmxAgents.Shared.Audit

open Lib Lib.Cbor Lib.Json Lib.JsonLines Lib.Runs Lib.Scanner Lib.Timestamp

structure State where
  file : Bytes
  log : Option Log
  completed : List Entry

/-- The state of an empty file that no process has open. -/
def State.init : State := ⟨[], none, []⟩

inductive Op where
  | open
  | append (e : Entry) (now : Time)
  /-- An append of which only the first bytes reach the file. -/
  | crash (e : Entry) (now : Time) (written : ℕ)

section Steps
variable (sha256 : Bytes → Bytes)

/-- One operation. An append needs an open log, and a crash an append that writes. -/
def step (s : State) : Op → Option State
  | .open => some { s with log := openLog s.file }
  | .append e now =>
      match s.log with
      | none => none
      | some l =>
          match marshal (l.stamped sha256 e now) with
          | none => some s
          | some line =>
              let e := l.stamped sha256 e now
              some ⟨s.file ++ (line ++ [0x0a]), some ⟨e.hash, e.seq⟩, s.completed ++ [e]⟩
  | .crash e now written =>
      match s.log with
      | none => none
      | some l =>
          match marshal (l.stamped sha256 e now) with
          | none => none
          | some line =>
              if written < (line ++ [0x0a]).length then
                some ⟨s.file ++ (line ++ [0x0a]).take written, none, s.completed⟩
              else none

/-- The log can be opened and verified, and lists the completed entries, numbered from one. -/
structure Intact (s : State) : Prop where
  opens : (openLog s.file).isSome
  verifies : verify sha256 s.file = .ok ()
  lists : iter s.file 1 = s.completed
  numbered : s.completed.map Entry.seq = List.range' 1 s.completed.length

/-- An append whose line fits and whose strings are valid, and a crash before the first byte. -/
def Clean (s : State) : Op → Prop
  | .open => True
  | .append e now => ∀ l line, s.log = some l → marshal (l.stamped sha256 e now) = some line →
      Fits fileBytes line ∧ Valid e.jobID ∧ Valid e.command ∧ Valid e.step
  | .crash e now written => ∀ l line, s.log = some l →
      marshal (l.stamped sha256 e now) = some line → written < (line ++ [0x0a]).length →
      written = 0

end Steps

/-! ## Reading a file of whole lines -/

/-- The entry is written as one line that is read back as the entry. -/
structure Readable (e : Entry) : Prop where
  valid : e.timestamp.stamp.Valid
  sanitized : e.sanitize = e
  fits : Fits fileBytes e.line

theorem Readable.unmarshal_line {e : Entry} (h : Readable e) : unmarshal e.line = some e := by
  rw [Audit.unmarshal_line h.valid, h.sanitized]

/-- The file of some entries. -/
def fileOf (es : List Entry) : Bytes := linesOf (es.map Entry.members)

theorem fileOf_concat (es : List Entry) (e : Entry) :
    fileOf (es ++ [e]) = fileOf es ++ (e.line ++ [0x0a]) := by
  rw [fileOf, List.map_append, linesOf_append, List.map_singleton, linesOf_singleton]
  rfl

/-- Behind readable lines the scan goes on. -/
theorem scan_fileOf {es : List Entry} (h : ∀ e ∈ es, Readable e) (rest : Bytes) :
    scan fileBytes (fileOf es ++ rest) =
      ⟨es.map Entry.line ++ (scan fileBytes rest).tokens, (scan fileBytes rest).tooLong⟩ := by
  have hfits : ∀ ms ∈ es.map Entry.members, Fits fileBytes (writeObject ms) :=
    List.forall_mem_map.mpr fun e he => (h e he).fits
  have hscan := scan_linesOf hfits rest
  rw [List.map_map] at hscan
  exact hscan

theorem replayLines_fileOf {es : List Entry} (h : ∀ e ∈ es, Readable e) (last : Option Entry)
    (rest : List Bytes) :
    replayLines last (es.map Entry.line ++ rest) = replayLines (es.getLast?.or last) rest := by
  induction es generalizing last with
  | nil => rfl
  | cons e es ih =>
      rw [List.map_cons, List.cons_append, replayLines, (h e (by simp)).unmarshal_line]
      simp only
      rw [ih (fun x hx => h x (by simp [hx]))]
      cases hlast : es.getLast? <;> simp [List.getLast?_cons, hlast]

theorem filterMap_fileOf {es : List Entry} (h : ∀ e ∈ es, Readable e) :
    (es.map Entry.line).filterMap unmarshal = es := by
  induction es with
  | nil => rfl
  | cons e es ih =>
      rw [List.map_cons, List.filterMap_cons, (h e (by simp)).unmarshal_line]
      simp [ih fun x hx => h x (by simp [hx])]

/-! ## Chains -/

/-- The head and the number after some entries. -/
def logOf (es : List Entry) : Log :=
  match es.getLast? with
  | none => ⟨[], 0⟩
  | some e => ⟨e.hash, e.seq⟩

/-- Readable entries, each chained to the one before and numbered after it. -/
inductive Chain (sha256 : Bytes → Bytes) : List Entry → Prop
  | nil : Chain sha256 []
  | concat {es : List Entry} {e : Entry} (chain : Chain sha256 es) (readable : Readable e)
      (seq : e.seq = (logOf es).seq + 1)
      (hash : e.hash = computeHashWithPrev sha256 (logOf es).head e) : Chain sha256 (es ++ [e])

theorem Chain.readable {sha256 : Bytes → Bytes} {es : List Entry} (h : Chain sha256 es) :
    ∀ e ∈ es, Readable e := by
  induction h with
  | nil => simp
  | concat _ readable _ _ ih =>
      rw [List.forall_mem_append]
      exact ⟨ih, by simpa using readable⟩

@[simp] theorem logOf_concat (es : List Entry) (e : Entry) :
    logOf (es ++ [e]) = ⟨e.hash, e.seq⟩ := by
  simp [logOf]

theorem Chain.logOf_seq {sha256 : Bytes → Bytes} {es : List Entry} (h : Chain sha256 es) :
    (logOf es).seq = es.length := by
  induction h with
  | nil => rfl
  | concat _ _ seq _ ih => rw [logOf_concat, seq, ih, List.length_append, List.length_singleton]

theorem Chain.map_seq {sha256 : Bytes → Bytes} {es : List Entry} (h : Chain sha256 es) :
    es.map Entry.seq = List.range' 1 es.length := by
  induction h with
  | nil => rfl
  | concat chain _ seq _ ih =>
      rw [List.map_append, ih, List.length_append, List.length_singleton, List.range'_concat,
        List.map_singleton, seq, chain.logOf_seq, Nat.one_mul, Nat.add_comm 1]

theorem Chain.one_le_seq {sha256 : Bytes → Bytes} {es : List Entry} (h : Chain sha256 es) :
    ∀ e ∈ es, 1 ≤ e.seq := by
  intro e he
  have hmem : e.seq ∈ List.range' 1 es.length := h.map_seq ▸ List.mem_map_of_mem he
  exact (List.mem_range'_1.mp hmem).1

/-- The head of the chain is a text of a hash, or empty. -/
theorem Chain.valid_head {sha256 : Bytes → Bytes} {es : List Entry} (h : Chain sha256 es) :
    Valid (logOf es).head := by
  cases h with
  | nil => exact valid_of_ascii (by simp [logOf])
  | @concat es e _ readable _ _ =>
      rw [logOf_concat]
      exact sanitize_eq_iff.mp (congrArg Entry.hash readable.sanitized)

section Files
variable {sha256 : Bytes → Bytes} {es : List Entry}

theorem Chain.verifyLines_append (h : Chain sha256 es) (lineNum : ℕ) (rest : List Bytes) :
    verifyLines sha256 [] lineNum (es.map Entry.line ++ rest) =
      verifyLines sha256 (logOf es).head (lineNum + es.length) rest := by
  induction h generalizing rest with
  | nil => rfl
  | @concat es e _ readable _ hash ih =>
      rw [List.map_append, List.append_assoc, ih, List.map_singleton, List.singleton_append,
        verifyLines, readable.unmarshal_line]
      simp only [logOf_concat, List.length_append, List.length_singleton]
      rw [if_neg (not_not_intro hash), Nat.add_assoc]

/-- Opening reads the chain and goes on behind it. -/
theorem Chain.openLog_eq (h : Chain sha256 es) : openLog (fileOf es) = some (logOf es) := by
  have hscan := scan_fileOf h.readable []
  have hreplay := replayLines_fileOf h.readable none []
  rw [List.append_nil, scan_nil, List.append_nil] at hscan
  rw [List.append_nil, Option.or_none] at hreplay
  simp only [openLog, hscan, hreplay, replayLines, logOf]
  cases es.getLast? <;> rfl

theorem Chain.openLog_tooLong (h : Chain sha256 es) {rest : Bytes}
    (hrest : scan fileBytes rest = ⟨[], true⟩) : openLog (fileOf es ++ rest) = none := by
  have hscan := scan_fileOf h.readable rest
  have hreplay := replayLines_fileOf h.readable none []
  rw [hrest, List.append_nil] at hscan
  rw [List.append_nil, Option.or_none] at hreplay
  simp [openLog, hscan, hreplay, replayLines]

theorem Chain.verify_eq (h : Chain sha256 es) : verify sha256 (fileOf es) = .ok () := by
  have hscan := scan_fileOf h.readable []
  have hlines := h.verifyLines_append 0 []
  rw [List.append_nil, scan_nil, List.append_nil] at hscan
  rw [List.append_nil] at hlines
  simp [verify, hscan, hlines, verifyLines]

/-- A last line that is no entry makes the check of the chain fail. -/
theorem Chain.verify_torn (h : Chain sha256 es) {rest p : Bytes}
    (hrest : scan fileBytes rest = ⟨[p], false⟩) (hp : unmarshal p = none) :
    verify sha256 (fileOf es ++ rest) = .error (.unmarshal (es.length + 1)) := by
  have hscan := scan_fileOf h.readable rest
  have hlines := h.verifyLines_append 0 [p]
  rw [hrest] at hscan
  simp [verify, hscan, hlines, verifyLines, hp]

/-- A reader is sent the chain, and what is read behind it. -/
theorem Chain.iter_append (h : Chain sha256 es) (rest : Bytes) :
    iter (fileOf es ++ rest) 1 = es ++ iter rest 1 := by
  have hall : es.filter (fun e => decide (1 ≤ e.seq)) = es :=
    List.filter_eq_self.mpr fun e he => decide_eq_true (h.one_le_seq e he)
  rw [iter, iter, scan_fileOf h.readable rest, List.filterMap_append,
    filterMap_fileOf h.readable, List.filter_append, hall]

end Files

/-! ## The line of an append -/

section Line
variable {sha256 : Bytes → Bytes} {l : Log} {e : Entry} {now : Time}

theorem marshal_eq_some {e : Entry} {line : Bytes} (h : marshal e = some line) :
    e.timestamp.stamp.Valid ∧ line = e.line := by
  rw [marshal] at h
  split_ifs at h with hvalid
  exact ⟨hvalid, (Option.some.inj h).symm⟩

theorem stamped_hash (l : Log) (e : Entry) (now : Time) :
    (l.stamped sha256 e now).hash = computeHashWithPrev sha256 l.head (l.stamped sha256 e now) :=
  rfl

theorem valid_computeHash (e : Entry) : Valid (computeHash sha256 e) :=
  valid_of_ascii (Hex.utf8_encode _).2

/-- A written entry is read back as it is when its strings are valid. -/
theorem sanitize_stamped_iff (hhead : Valid l.head) :
    (l.stamped sha256 e now).sanitize = l.stamped sha256 e now ↔
      Valid e.jobID ∧ Valid e.command ∧ Valid e.step := by
  have hhash : Json.sanitize (l.stamped sha256 e now).hash = (l.stamped sha256 e now).hash :=
    sanitize_eq (valid_computeHash _)
  constructor
  · intro h
    exact ⟨sanitize_eq_iff.mp (congrArg Entry.jobID h),
      sanitize_eq_iff.mp (congrArg Entry.command h), sanitize_eq_iff.mp (congrArg Entry.step h)⟩
  · rintro ⟨hjob, hcommand, hstep⟩
    rw [Entry.sanitize, hhash]
    simp only [Log.stamped, sanitize_eq hjob, sanitize_eq hcommand, sanitize_eq hstep,
      sanitize_eq hhead]

theorem scan_whole (e : Entry) (hfits : Fits fileBytes e.line) :
    scan fileBytes (e.line ++ [0x0a]) = ⟨[e.line], false⟩ :=
  scan_writeObject hfits []

/-- The line of an append, as far as it was written, has no line end. -/
theorem take_line {line : Bytes} {written : ℕ} (h : written < (line ++ [0x0a]).length) :
    (line ++ [(0x0a : UInt8)]).take written = line.take written := by
  rw [List.length_append, List.length_singleton] at h
  rw [List.take_append_of_le_length (by omega)]

theorem iter_singleton {rest line : Bytes} {e : Entry}
    (hscan : scan fileBytes rest = ⟨[line], false⟩)
    (he : unmarshal line = some e) (hseq : 1 ≤ e.seq) : iter rest 1 = [e] := by
  simp [iter, hscan, he, hseq]

end Line

/-! ## Runs -/

/-- The file holds the completed entries, and an open log goes on behind them. -/
structure Inv (sha256 : Bytes → Bytes) (s : State) : Prop where
  file : s.file = fileOf s.completed
  chain : Chain sha256 s.completed
  log : ∀ l, s.log = some l → l = logOf s.completed

section Steps
variable {sha256 : Bytes → Bytes} {s t : State}

theorem inv_init : Inv sha256 State.init := ⟨rfl, .nil, fun _ h => nomatch h⟩

theorem Inv.intact (h : Inv sha256 s) : Intact sha256 s where
  opens := by rw [h.file, h.chain.openLog_eq]; rfl
  verifies := by rw [h.file, h.chain.verify_eq]
  lists := by
    have hiter := h.chain.iter_append []
    rw [List.append_nil] at hiter
    rw [h.file, hiter]
    exact List.append_nil _
  numbered := h.chain.map_seq

/-- The open log and the line of an append. -/
def State.Writes (sha256 : Bytes → Bytes) (s : State) (e : Entry) (now : Time) (l : Log)
    (line : Bytes) : Prop :=
  s.log = some l ∧ marshal (l.stamped sha256 e now) = some line

theorem step_append {e : Entry} {now : Time} {l : Log} {line : Bytes}
    (h : s.Writes sha256 e now l line) :
    step sha256 s (.append e now) = some ⟨s.file ++ (line ++ [0x0a]),
      some ⟨(l.stamped sha256 e now).hash, (l.stamped sha256 e now).seq⟩,
      s.completed ++ [l.stamped sha256 e now]⟩ := by
  simp only [step, h.1, h.2]

theorem step_crash {e : Entry} {now : Time} {written : ℕ} {l : Log} {line : Bytes}
    (h : s.Writes sha256 e now l line) (hlt : written < (line ++ [0x0a]).length) :
    step sha256 s (.crash e now written) =
      some ⟨s.file ++ line.take written, none, s.completed⟩ := by
  simp only [step, h.1, h.2, if_pos hlt, take_line hlt]

/-- What an operation can do: open the file, write a line or its start, or nothing. -/
theorem step_cases {op : Op} (h : step sha256 s op = some t) :
    (op = .open ∧ t = { s with log := openLog s.file }) ∨ t = s ∨
    (∃ e now l line, op = .append e now ∧ s.Writes sha256 e now l line) ∨
    (∃ e now written l line, op = .crash e now written ∧ s.Writes sha256 e now l line ∧
      written < (line ++ [0x0a]).length) := by
  cases op with
  | «open» => exact .inl ⟨rfl, (Option.some.inj h).symm⟩
  | append e now =>
      simp only [step] at h
      split at h
      · cases h
      · rename_i l hlog
        split at h
        · exact .inr (.inl (Option.some.inj h).symm)
        · rename_i line hmarshal
          exact .inr (.inr (.inl ⟨e, now, l, line, rfl, hlog, hmarshal⟩))
  | crash e now written =>
      simp only [step] at h
      split at h
      · cases h
      · rename_i l hlog
        split at h
        · cases h
        · rename_i line hmarshal
          split_ifs at h with hlt
          exact .inr (.inr (.inr ⟨e, now, written, l, line, rfl, ⟨hlog, hmarshal⟩, hlt⟩))

theorem Inv.append {e : Entry} {now : Time} {l : Log} {line : Bytes} (h : Inv sha256 s)
    (hw : s.Writes sha256 e now l line) (hclean : Clean sha256 s (.append e now))
    (ht : step sha256 s (.append e now) = some t) : Inv sha256 t := by
  obtain ⟨hfits, hstrings⟩ := hclean l line hw.1 hw.2
  obtain ⟨hvalid, rfl⟩ := marshal_eq_some hw.2
  obtain rfl := h.log l hw.1
  rw [step_append hw] at ht
  obtain rfl := Option.some.inj ht
  have hreadable : Readable ((logOf s.completed).stamped sha256 e now) :=
    ⟨hvalid, (sanitize_stamped_iff h.chain.valid_head).mpr hstrings, hfits⟩
  refine ⟨?_, h.chain.concat hreadable rfl (stamped_hash _ _ _), fun l hl => ?_⟩
  · rw [fileOf_concat, ← h.file]
  · rw [logOf_concat]
    exact (Option.some.inj hl).symm

/-- A clean operation keeps the file whole. -/
theorem Inv.step {op : Op} (h : Inv sha256 s) (hclean : Clean sha256 s op)
    (ht : step sha256 s op = some t) : Inv sha256 t := by
  rcases step_cases ht with ⟨rfl, rfl⟩ | rfl | ⟨e, now, l, line, rfl, hw⟩ |
    ⟨e, now, written, l, line, rfl, hw, hlt⟩
  · refine ⟨h.file, h.chain, fun l hl => ?_⟩
    rw [h.file, h.chain.openLog_eq] at hl
    exact (Option.some.inj hl).symm
  · exact h
  · exact h.append hw hclean ht
  · obtain rfl := hclean l line hw.1 hw.2 hlt
    rw [step_crash hw hlt, List.take_zero, List.append_nil] at ht
    obtain rfl := Option.some.inj ht
    exact ⟨h.file, h.chain, fun _ hl => nomatch hl⟩

/-- After an append that leaves the log intact, the line fits and its strings are valid. -/
theorem Inv.clean_append {e : Entry} {now : Time} (h : Inv sha256 s)
    (hintact : ∀ t, Audit.step sha256 s (.append e now) = some t → Intact sha256 t) :
    Clean sha256 s (.append e now) := by
  intro l line hlog hmarshal
  have hi := hintact _ (step_append ⟨hlog, hmarshal⟩)
  obtain ⟨hvalid, rfl⟩ := marshal_eq_some hmarshal
  obtain rfl := h.log l hlog
  have hopens := hi.opens
  have hlists := hi.lists
  simp only [h.file] at hopens hlists
  have hfits : Fits fileBytes ((logOf s.completed).stamped sha256 e now).line := by
    by_contra hnot
    have hlong : scan fileBytes (((logOf s.completed).stamped sha256 e now).line ++ [0x0a]) =
        ⟨[], true⟩ :=
      scan_tooLong fileBytes (newline_notMem_writeObject _) hnot (Or.inr rfl)
    rw [h.chain.openLog_tooLong hlong] at hopens
    cases hopens
  have hiter := iter_singleton (scan_whole _ hfits) (Audit.unmarshal_line hvalid)
    (Nat.le_add_left 1 _)
  rw [h.chain.iter_append, hiter] at hlists
  have hsame := List.singleton_inj.mp (List.append_cancel_left hlists)
  exact ⟨hfits, (sanitize_stamped_iff h.chain.valid_head).mp hsame⟩

/-- A crash that leaves the log intact wrote nothing. -/
theorem Inv.clean_crash {e : Entry} {now : Time} {written : ℕ} (h : Inv sha256 s)
    (hintact : ∀ t, Audit.step sha256 s (.crash e now written) = some t → Intact sha256 t) :
    Clean sha256 s (.crash e now written) := by
  intro l line hlog hmarshal hlt
  have hi := hintact _ (step_crash ⟨hlog, hmarshal⟩ hlt)
  obtain ⟨hvalid, rfl⟩ := marshal_eq_some hmarshal
  obtain rfl := h.log l hlog
  generalize he : (logOf s.completed).stamped sha256 e now = e' at hvalid hlt hi
  have hpre : e'.line.take written <+: e'.line := List.take_prefix _ _
  have hopens := hi.opens
  have hlists := hi.lists
  have hverifies := hi.verifies
  simp only [h.file] at hopens hlists hverifies
  by_contra hzero
  have hne : e'.line.take written ≠ [] := by
    simp [List.take_eq_nil_iff, hzero, Entry.line, writeObject_ne_nil]
  have hscan := scan_torn hpre hne
  split_ifs at hscan with hfits
  · by_cases hwhole : e'.line.take written = e'.line
    · -- the whole line without its end is one more entry
      rw [hwhole] at hscan hlists
      rw [h.chain.iter_append, iter_singleton hscan (Audit.unmarshal_line hvalid)
        (he ▸ Nat.le_add_left 1 _)] at hlists
      simpa using congrArg List.length hlists
    · rw [h.chain.verify_torn hscan (unmarshal_isPrefix hpre hwhole)] at hverifies
      cases hverifies
  · rw [h.chain.openLog_tooLong hscan] at hopens
    cases hopens

/-- From an empty file, every operation leaves the log intact exactly when every append writes
a line that fits with valid strings and no crash leaves a part of one. -/
theorem intact_iff_clean (sha256 : Bytes → Bytes) (ops : List Op) :
    Admits (step sha256) (fun s op => ∀ t, step sha256 s op = some t → Intact sha256 t)
      State.init ops ↔
    Admits (step sha256) (Clean sha256) State.init ops := by
  refine admits_iff_of_invariant (fun s op t h hclean ht => h.step hclean ht) ?_ inv_init
  intro s op h
  refine ⟨fun hintact => ?_, fun hclean t ht => (h.step hclean ht).intact⟩
  cases op with
  | «open» => trivial
  | append e now => exact h.clean_append hintact
  | crash e now written => exact h.clean_crash hintact

end Steps

/-- A first append is cut off after one byte. The log opens again and an entry is appended, but
the check of the chain fails on the first line and no reader is sent the entry. -/
theorem torn_append_loses_entry :
    let sha256 : Bytes → Bytes := fun _ => List.replicate 32 0
    let e : Entry := ⟨0, ⟨0, 0⟩, utf8 "job-1", utf8 "status", utf8 "run", 0, 12, [], []⟩
    (exec (step sha256) State.init [.open, .crash e ⟨0, 0⟩ 1, .open, .append e ⟨0, 0⟩]).map
        (fun s => (s.completed.map Entry.seq, verify sha256 s.file, iter s.file 1)) =
      some ([1], .error (.unmarshal 1), []) := by
  decide +kernel

end PmxAgents.Shared.Audit

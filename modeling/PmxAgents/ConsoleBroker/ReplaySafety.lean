import PmxAgents.ConsoleBroker.ReplayStore
import PmxAgents.Lib.Runs

/-!
# No envelope is accepted twice within two hours

An accepted envelope leaves a record of its job id, and every later process that can
load the file within two hours puts that job id into its cache, from where the
verification rejects it. Two things break this. The record carries the job id without
the white space around it, while the verification looks up the job id as it is. And a
process that is killed while it writes the records back leaves a file without the rest
of them.

## Implementation notes

A line that does not fit into the buffer of the scanner locks the file for good: no
process loads it any more, and none accepts. `Reads` therefore says what a file holds
for the processes that can load it.
-/

namespace PmxAgents.ConsoleBroker

open Lib Lib.Cbor Lib.Json Lib.JsonLines Lib.Runs Lib.Scanner Lib.Timestamp
open Shared.Audit (timeField timeField_of_mem)

/-! ## Records are read back -/

namespace Record

theorem nodup_keys (r : Record) : (r.members.map Prod.fst).Nodup := by
  have hkeys : [utf8 "job_id", utf8 "observed_at"].Nodup := by decide
  exact hkeys

theorem sanitize_members (r : Record) : sanitizeMembers r.members = r.members := by
  have htime : Json.sanitize (ofChars (Timestamp.write r.observedAt.stamp)) =
      ofChars (Timestamp.write r.observedAt.stamp) :=
    sanitize_eq (valid_of_ascii (valid_ofChars lt_of_mem_write))
  simp only [sanitizeMembers, members, List.map_cons, List.map_nil, Value.sanitize, htime,
    sanitize_eq (valid_utf8 _)]

theorem unmarshal_line {r : Record} (h : r.observedAt.stamp.Valid) :
    unmarshal r.line = some r := by
  have hparse : parse r.line = some r.members := by
    rw [line, parse_writeObject, sanitize_members]
  have hjob : stringField r.members "job_id" = some (utf8 r.jobID) :=
    stringField_of_mem r.nodup_keys (by simp [members])
  have htime : timeField r.members "observed_at" = some r.observedAt :=
    timeField_of_mem r.nodup_keys (by simp [members]) h
  simp only [unmarshal, hparse, hjob, htime, Option.bind_eq_bind, Option.bind_some, ofUtf8_utf8]
  rfl

theorem unmarshal_isPrefix {r : Record} {p : Bytes} (h : p <+: r.line) (hne : p ≠ r.line) :
    unmarshal p = none := by
  have hparse : parse p = none := parse_isPrefix h hne
  rw [unmarshal, hparse]
  rfl

theorem marshal_eq_some {r : Record} {line : Bytes} (h : r.marshal = some line) :
    r.observedAt.stamp.Valid ∧ line = r.line := by
  rw [marshal] at h
  split_ifs at h with hvalid
  exact ⟨hvalid, (Option.some.inj h).symm⟩

end Record

/-! ## What a file holds -/

/-- The records of a file, line by line. -/
def recordsOf (file : Bytes) : List Record :=
  (scan fileBytes file).tokens.filterMap Record.unmarshal

/-- The file holds the records, unless no process can load it. -/
def Reads (file : Bytes) (rs : List Record) : Prop :=
  (scan fileBytes file).tooLong = true ∨ recordsOf file = rs

/-- The file of some records. -/
def fileOf (rs : List Record) : Bytes := linesOf (rs.map Record.members)

theorem fileOf_concat (rs : List Record) (r : Record) :
    fileOf (rs ++ [r]) = fileOf rs ++ (r.line ++ [0x0a]) := by
  rw [fileOf, List.map_append, linesOf_append, List.map_singleton, linesOf_singleton]
  rfl

theorem filterMap_line {rs : List Record} (h : ∀ r ∈ rs, r.observedAt.stamp.Valid) :
    (rs.map Record.line).filterMap Record.unmarshal = rs := by
  rw [List.filterMap_map]
  calc rs.filterMap (Record.unmarshal ∘ Record.line)
      = rs.filterMap some := List.filterMap_congr fun r hr => Record.unmarshal_line (h r hr)
    _ = rs := List.filterMap_some

theorem rewriteRecord_eq {r : Record} {line : Bytes} (h : r.marshal = some line)
    (rest : Bytes × Bool) : rewriteRecord r rest = (line ++ 0x0a :: rest.1, rest.2) := by
  unfold rewriteRecord
  rw [h]

theorem rewriteActive_eq {rs : List Record} (h : ∀ r ∈ rs, r.observedAt.stamp.Valid) :
    rewriteActive rs = (fileOf rs, true) := by
  induction rs with
  | nil => rfl
  | cons r rest ih =>
      obtain ⟨hr, hrest⟩ := List.forall_mem_cons.mp h
      have hfile : fileOf (r :: rest) = r.line ++ 0x0a :: fileOf rest := by
        simp [fileOf, linesOf, Record.line]
      rw [rewriteActive] at ih ⊢
      rw [List.foldr_cons, ih hrest, rewriteRecord_eq (if_pos hr), hfile]

theorem reads_nil : Reads [] [] := Or.inr (by rw [recordsOf, scan_nil]; rfl)

/-- Behind whole lines the records go on. -/
theorem Reads.behind {rest : Bytes} {rs new : List Record} (hrest : Reads rest new)
    (h : ∀ r ∈ rs, r.observedAt.stamp.Valid) : Reads (fileOf rs ++ rest) (rs ++ new) := by
  by_cases hfits : ∀ ms ∈ rs.map Record.members, Fits fileBytes (writeObject ms)
  · have hscan := scan_linesOf hfits rest
    rw [List.map_map] at hscan
    rw [Reads, recordsOf, fileOf, hscan]
    refine hrest.imp id fun hnew => ?_
    rw [List.filterMap_append]
    exact congrArg₂ (· ++ ·) (filterMap_line h) hnew
  · exact Or.inl (scan_linesOf_tooLong hfits rest)

theorem reads_fileOf {rs : List Record} (h : ∀ r ∈ rs, r.observedAt.stamp.Valid) :
    Reads (fileOf rs) rs := by
  simpa using reads_nil.behind h

section Torn
variable {r : Record}

theorem reads_line (h : r.observedAt.stamp.Valid) : Reads r.line [r] := by
  have hscan := scan_torn (List.prefix_refl r.line) (writeObject_ne_nil r.members)
  rw [Reads, recordsOf, hscan]
  split_ifs
  · exact Or.inr (by simp [Record.unmarshal_line h])
  · exact Or.inl rfl

/-- A line that was cut off holds no record. -/
theorem reads_torn {p : Bytes} (hp : p <+: r.line) (hne : p ≠ r.line) : Reads p [] := by
  by_cases hnil : p = []
  · exact hnil ▸ reads_nil
  · have hscan := scan_torn hp hnil
    rw [Reads, recordsOf, hscan]
    split_ifs
    · exact Or.inr (by simp [Record.unmarshal_isPrefix hp hne])
    · exact Or.inl rfl

/-- The first bytes of a line hold its record or nothing. -/
theorem reads_isPrefix (h : r.observedAt.stamp.Valid) {p : Bytes} (hp : p <+: r.line ++ [0x0a]) :
    Reads p [] ∨ Reads p [r] := by
  rcases List.prefix_concat_iff.mp hp with rfl | hline
  · have hfile : Reads (fileOf [r]) [r] := reads_fileOf (by simpa using h)
    rw [fileOf, List.map_singleton, linesOf_singleton] at hfile
    exact Or.inr hfile
  · by_cases heq : p = r.line
    · exact Or.inr (heq ▸ reads_line h)
    · exact Or.inl (reads_torn hline heq)

end Torn

/-- The last line end may be missing. -/
theorem reads_take_fileOf {rs : List Record} (h : ∀ r ∈ rs, r.observedAt.stamp.Valid)
    {written : ℕ} (hwritten : (fileOf rs).length ≤ written + 1) :
    Reads ((fileOf rs).take written) rs := by
  by_cases hall : (fileOf rs).length ≤ written
  · rw [List.take_of_length_le hall]
    exact reads_fileOf h
  · rcases List.eq_nil_or_concat rs with rfl | ⟨front, r, rfl⟩
    · exact absurd (Nat.zero_le written) hall
    · rw [List.concat_eq_append] at *
      rw [List.forall_mem_append] at h
      have hlast : written = (fileOf (front ++ [r])).length - 1 := by omega
      rw [hlast, ← List.dropLast_eq_take, fileOf_concat, ← List.append_assoc,
        List.dropLast_concat]
      exact (reads_line (h.2 r (by simp))).behind h.1

/-! ## Loading -/

/-- What a record does to the map. -/
def keep (cutoff : Int) (seen : List Record) (r : Record) : List Record :=
  if Text.trimSpace r.jobID = "" ∨ r.observedAt.instant < cutoff then seen else insert seen r

theorem Reads.load_eq {file : Bytes} {rs seen : List Record} {now : Int} (h : Reads file rs)
    (hload : load file now = some seen) : seen = rs.foldl (keep (now - replayTTL)) [] := by
  simp only [load] at hload
  split_ifs at hload with hlong
  obtain rfl := h.resolve_left hlong
  rw [recordsOf, List.foldl_filterMap, ← Option.some.inj hload]
  congr 1
  funext seen line
  rw [loadLine]
  cases Record.unmarshal line <;> rfl

section Keep
variable {cutoff : Int} {rs seen : List Record} {r : Record}

theorem mem_of_mem_keep {x : Record} (h : x ∈ keep cutoff seen r) : x ∈ seen ∨ x = r := by
  rw [keep] at h
  split_ifs at h
  · exact Or.inl h
  · rw [insert, List.mem_append, List.mem_singleton] at h
    exact h.imp_left List.mem_of_mem_filter

/-- Only records of the file are loaded. -/
theorem mem_of_mem_foldl_keep {x : Record} (h : x ∈ rs.foldl (keep cutoff) seen) :
    x ∈ seen ∨ x ∈ rs := by
  induction rs generalizing seen with
  | nil => exact Or.inl h
  | cons r rest ih =>
      rw [List.foldl_cons] at h
      rcases ih h with hx | hx
      · rcases mem_of_mem_keep hx with hx | rfl
        · exact Or.inl hx
        · exact Or.inr List.mem_cons_self
      · exact Or.inr (List.mem_cons_of_mem r hx)

/-- The records have the job id, and none of them from before the time. -/
def Holds (rs : List Record) (jobID : String) (t : Int) : Prop :=
  (∃ r ∈ rs, r.jobID = jobID) ∧ ∀ r ∈ rs, r.jobID = jobID → t ≤ r.observedAt.instant

theorem Holds.insert {jobID : String} {t : Int} (h : Holds seen jobID t)
    (hr : r.jobID = jobID → t ≤ r.observedAt.instant) : Holds (insert seen r) jobID t := by
  obtain ⟨⟨x, hx, hxj⟩, hall⟩ := h
  constructor
  · by_cases heq : r.jobID = jobID
    · exact ⟨r, List.mem_append_right _ (List.mem_singleton_self r), heq⟩
    · have hne : x.jobID ≠ r.jobID := fun h => heq (h.symm.trans hxj)
      exact ⟨x, List.mem_append_left _ (List.mem_filter.mpr ⟨hx, decide_eq_true hne⟩), hxj⟩
  · intro y hy hyj
    rcases List.mem_append.mp hy with hy | hy
    · exact hall y (List.mem_of_mem_filter hy) hyj
    · obtain rfl := List.mem_singleton.mp hy
      exact hr hyj

theorem holds_insert {t : Int} (ht : t ≤ r.observedAt.instant) :
    Holds (insert seen r) r.jobID t := by
  refine ⟨⟨r, List.mem_append_right _ (List.mem_singleton_self r), rfl⟩, fun y hy hyj => ?_⟩
  rcases List.mem_append.mp hy with hy | hy
  · exact absurd hyj (of_decide_eq_true (List.mem_filter.mp hy).2)
  · obtain rfl := List.mem_singleton.mp hy
    exact ht

theorem Holds.foldl_keep {jobID : String} {t : Int} (h : Holds seen jobID t)
    (hrs : ∀ r ∈ rs, r.jobID = jobID → t ≤ r.observedAt.instant) :
    Holds (rs.foldl (keep cutoff) seen) jobID t := by
  induction rs generalizing seen with
  | nil => exact h
  | cons r rest ih =>
      obtain ⟨hr, hrest⟩ := List.forall_mem_cons.mp hrs
      rw [List.foldl_cons]
      refine ih ?_ hrest
      rw [keep]
      split_ifs
      · exact h
      · exact h.insert hr

/-- What the end of a file holds is loaded until it is too old. -/
theorem Holds.loaded {recent : List Record} {jobID : String} {t : Int}
    (h : Holds recent jobID t) (hrecent : recent <:+ rs) (hblank : Text.trimSpace jobID ≠ "")
    (hcutoff : cutoff ≤ t) : Holds (rs.foldl (keep cutoff) []) jobID t := by
  obtain ⟨front, rfl⟩ := hrecent
  obtain ⟨⟨r, hr, rfl⟩, hall⟩ := h
  obtain ⟨before, after, rfl⟩ := List.append_of_mem hr
  have ht := hall r hr rfl
  have hkept : ¬ (Text.trimSpace r.jobID = "" ∨ r.observedAt.instant < cutoff) :=
    not_or.mpr ⟨hblank, not_lt.mpr (hcutoff.trans ht)⟩
  rw [List.foldl_append, List.foldl_append, List.foldl_cons, keep, if_neg hkept]
  exact (holds_insert ht).foldl_keep fun x hx =>
    hall x (List.mem_append_right _ (List.mem_cons_of_mem r hx))

end Keep

/-! ## The cache of the loaded job ids -/

section Cache
variable {capacity : ℕ} {ttl lo : Int} {now : ℕ → Int} {cache : Shared.ReplayCache}

theorem sound_foldl (hs : Shared.Sound capacity ttl cache) (now : ℕ → Int)
    (ids : List (String × ℕ)) :
    Shared.Sound capacity ttl (ids.foldl (fun c (jobID, i) => c.remember jobID (now i)) cache) := by
  induction ids generalizing cache with
  | nil => exact hs
  | cons id rest ih => exact ih (hs.remember id.1 (now id.2))

theorem holds_foldl {ids : List (String × ℕ)} {since : List String} {jobID : String}
    (h : Shared.Holds lo since jobID cache) (hs : Shared.Sound capacity ttl cache)
    (hnow : ∀ i, lo ≤ now i) (hroom : since.length + ids.length < capacity) :
    ∃ since', Shared.Holds lo since' jobID
      (ids.foldl (fun c (jobID, i) => c.remember jobID (now i)) cache) := by
  induction ids generalizing cache since with
  | nil => exact ⟨since, h⟩
  | cons id rest ih =>
      rw [List.length_cons] at hroom
      have hdedup : (id.1 :: since).dedup.length < capacity := by
        have hle := (List.dedup_sublist (id.1 :: since)).length_le
        rw [List.length_cons] at hle
        omega
      refine ih (h.remember hs (hnow id.2) hdedup) (hs.remember id.1 (now id.2)) ?_
      rw [List.length_cons]
      omega

/-- A loaded job id is seen for two hours. -/
theorem seen_replayCache {jobIDs : List String} {jobID : String} (h : jobID ∈ jobIDs)
    (hnow : ∀ i, lo ≤ now i) {t : Int} (ht : t < lo + replayTTL) :
    (replayCache jobIDs now).seen jobID t = true := by
  have hmem : jobID ∈ jobIDs.zipIdx.map Prod.fst := by rwa [List.zipIdx_map_fst]
  obtain ⟨id, hid, rfl⟩ := List.mem_map.mp hmem
  obtain ⟨before, after, hsplit⟩ := List.append_of_mem hid
  have hlength : after.length < jobIDs.length + 1 := by
    have hl := congrArg List.length hsplit
    rw [List.length_zipIdx, List.length_append, List.length_cons] at hl
    omega
  rw [replayCache, hsplit, List.foldl_append, List.foldl_cons]
  have hbefore := sound_foldl (Shared.sound_new (jobIDs.length + 1) replayTTL) now before
  have hs := hbefore.remember id.1 (now id.2)
  have hself := Shared.Holds.of_remember hbefore [] id.1 (hnow id.2)
  obtain ⟨since, hheld⟩ := holds_foldl hself hs hnow (by simpa using hlength)
  exact hheld.seen (sound_foldl hs now after) ht

end Cache

/-! ## One process -/

/-- The record a process appends. -/
def Process.record (p : Process) : Record :=
  ⟨Text.trimSpace p.call.env.jobID, ⟨p.clock.remember, 0⟩⟩

/-- The job id has no white space around it, and a kill while the records are written back cuts
off no more than the last line end. -/
def Process.Safe (p : Process) : Prop :=
  match p.fate with
  | .ends => Text.trimSpace p.call.env.jobID = p.call.env.jobID
  | .killedInRewrite written => (rewriteActive p.order).1.length ≤ written + 1
  | .killedLater _ => True

theorem Clock.load_le_verify (c : Clock) : c.load ≤ c.verify.start :=
  (c.load_le_cache 0).trans (c.cache_le_verify 0)

theorem Clock.seen_le_remember (c : Clock) : c.verify.seen ≤ c.remember :=
  c.verify.seen_le_remember.trans c.verify_le_remember

theorem Clock.load_le_remember (c : Clock) : c.load ≤ c.remember :=
  (c.load_le_verify.trans c.verify.start_le_seen).trans c.seen_le_remember

section Process
variable {L : Shared.Libs} {p : Process}

theorem newLine_eq_some {line : Bytes} (h : p.newLine L = some line) :
    p.call.Accepted L p.clock.verify (replayCache p.cached p.clock.cache) ∧
      p.record.jobID ≠ "" ∧ p.record.observedAt.stamp.Valid ∧ line = p.record.line := by
  rw [Process.newLine] at h
  split at h
  · split at h
    · cases h
    · rename_i hok
      rw [rememberLine] at h
      split_ifs at h with hblank
      exact ⟨hok, hblank, Record.marshal_eq_some h⟩
  · cases h

/-- A job id in the cache is not accepted for two hours. -/
theorem le_of_newLine {line : Bytes} (h : p.newLine L = some line)
    (hcached : p.call.env.jobID ∈ p.cached) : p.clock.load + replayTTL ≤ p.clock.remember := by
  obtain ⟨hacc, -⟩ := newLine_eq_some h
  have hunseen := (Shared.Call.accepted_iff.mp hacc).2
  by_contra hlt
  have hseen := seen_replayCache (t := p.clock.verify.seen) hcached p.clock.load_le_cache
    (by have := p.clock.seen_le_remember; omega)
  exact Bool.false_ne_true (hunseen.symm.trans hseen)

/-- The job id of an accepted envelope is recorded as it is. -/
theorem Process.Accepts.trimmed (h : p.Accepts L) (hsafe : p.Safe) :
    Text.trimSpace p.call.env.jobID = p.call.env.jobID ∧ p.call.env.jobID ≠ "" := by
  obtain ⟨hfate, hsome⟩ := h
  obtain ⟨line, hline⟩ := Option.isSome_iff_exists.mp hsome
  obtain ⟨-, hblank, -⟩ := newLine_eq_some hline
  rw [Process.Safe, hfate] at hsafe
  rw [Process.record, hsafe] at hblank
  exact ⟨hsafe, hblank⟩

/-- Behind the records it loaded a process leaves at most its own, and its own if it accepts. -/
theorem reads_fileAfter (horder : ∀ r ∈ p.order, r.observedAt.stamp.Valid) (hsafe : p.Safe) :
    ∃ new, Reads (p.fileAfter L) (p.order ++ new) ∧
      (∀ r ∈ new, r = p.record ∧ r.observedAt.stamp.Valid) ∧
      (p.Accepts L → p.record ∈ new) := by
  have hnone : Reads (fileOf p.order ++ []) (p.order ++ []) := reads_nil.behind horder
  simp only [Process.fileAfter, Process.Safe, Process.Accepts, rewriteActive_eq horder,
    Process.newBytes] at hsafe ⊢
  cases hfate : p.fate with
  | killedInRewrite written =>
      rw [hfate] at hsafe
      refine ⟨[], ?_, by simp, fun hacc => absurd hacc.1 (by simp)⟩
      rw [List.append_nil]
      exact reads_take_fileOf horder hsafe
  | killedLater written =>
      cases hline : p.newLine L with
      | none => exact ⟨[], by simpa using hnone, by simp, fun hacc => absurd hacc.1 (by simp)⟩
      | some line =>
          obtain ⟨-, -, hvalid, rfl⟩ := newLine_eq_some hline
          rcases reads_isPrefix hvalid (List.take_prefix written _) with hnil | hrecord
          · exact ⟨[], hnil.behind horder, by simp, fun hacc => absurd hacc.1 (by simp)⟩
          · exact ⟨[p.record], hrecord.behind horder, by simpa using hvalid,
              fun hacc => absurd hacc.1 (by simp)⟩
  | ends =>
      cases hline : p.newLine L with
      | none => exact ⟨[], by simpa using hnone, by simp, fun hacc => by simp at hacc⟩
      | some line =>
          obtain ⟨-, -, hvalid, rfl⟩ := newLine_eq_some hline
          have hall : ∀ r ∈ p.order ++ [p.record], r.observedAt.stamp.Valid :=
            List.forall_mem_append.mpr ⟨horder, by simpa using hvalid⟩
          refine ⟨[p.record], ?_, by simpa using hvalid, fun _ => List.mem_singleton_self _⟩
          exact fileOf_concat p.order p.record ▸ reads_fileOf hall

end Process

/-- What a process does to the state. -/
theorem step_cases {L : Shared.Libs} {s t : State} {p : Process} (h : step L s p = some t) :
    s.clock ≤ p.clock.load ∧
      (t = { s with clock := p.clock.remember } ∨
        ∃ seen, load s.file p.clock.load = some seen ∧ p.Ranges seen ∧
          t = ⟨p.fileAfter L, p.clock.remember,
            if p.Accepts L then s.accepted ++ [(p.call.env, p.clock.remember)]
            else s.accepted⟩) := by
  rw [step] at h
  split at h
  · cases h
  · rename_i hclock
    refine ⟨not_lt.mp hclock, ?_⟩
    split at h
    · exact Or.inl (Option.some.inj h).symm
    · rename_i seen hload
      split at h
      · rename_i hranges
        exact Or.inr ⟨seen, hload, hranges, (Option.some.inj h).symm⟩
      · cases h

/-! ## Runs -/

/-- No envelope is accepted again within two hours. -/
def NoReplay (s : State) : Prop :=
  s.accepted.Pairwise fun a b => a.1 = b.1 → a.2 + replayTTL ≤ b.2

/-- What is accepted is held by the end of the file for two hours. -/
structure Inv (s : State) (rs : List Record) : Prop where
  reads : Reads s.file rs
  valid : ∀ r ∈ rs, r.observedAt.stamp.Valid
  past : ∀ a ∈ s.accepted, a.2 ≤ s.clock
  trimmed : ∀ a ∈ s.accepted, Text.trimSpace a.1.jobID = a.1.jobID ∧ a.1.jobID ≠ ""
  held : ∀ a ∈ s.accepted, s.clock < a.2 + replayTTL →
    ∃ recent, recent <:+ rs ∧ Holds recent a.1.jobID a.2
  apart : s.accepted.Pairwise fun a b => a.1.jobID = b.1.jobID → a.2 + replayTTL ≤ b.2

theorem inv_init (clock : Int) : Inv (State.init clock) [] where
  reads := reads_nil
  valid := by simp
  past := by simp [State.init]
  trimmed := by simp [State.init]
  held := by simp [State.init]
  apart := List.Pairwise.nil

section Step
variable {L : Shared.Libs} {s t : State} {p : Process} {rs seen : List Record}

/-- What is accepted is loaded for two hours. -/
theorem Inv.loaded (h : Inv s rs) (hload : load s.file p.clock.load = some seen)
    (hclock : s.clock ≤ p.clock.load) {a : Shared.Envelope × Int} (ha : a ∈ s.accepted)
    (hlive : p.clock.load < a.2 + replayTTL) : Holds seen a.1.jobID a.2 := by
  obtain ⟨recent, hrecent, hheld⟩ := h.held a ha (hclock.trans_lt hlive)
  obtain ⟨htrim, hne⟩ := h.trimmed a ha
  rw [h.reads.load_eq hload]
  exact hheld.loaded hrecent (by rwa [htrim]) (by omega)

/-- An accepted envelope has not been accepted within two hours. -/
theorem Inv.apart_of_accepts (h : Inv s rs) (hload : load s.file p.clock.load = some seen)
    (hclock : s.clock ≤ p.clock.load) (hranges : p.Ranges seen) (haccepts : p.Accepts L)
    {a : Shared.Envelope × Int} (ha : a ∈ s.accepted) (hjob : a.1.jobID = p.call.env.jobID) :
    a.2 + replayTTL ≤ p.clock.remember := by
  by_cases hlive : p.clock.load < a.2 + replayTTL
  · obtain ⟨⟨r, hr, hrj⟩, -⟩ := h.loaded hload hclock ha hlive
    have hcached : p.call.env.jobID ∈ p.cached := by
      rw [← hjob, ← hrj]
      exact hranges.2.mem_iff.mpr (List.mem_map_of_mem hr)
    obtain ⟨line, hline⟩ := Option.isSome_iff_exists.mp haccepts.2
    have hle := le_of_newLine hline hcached
    have hpast := h.past a ha
    omega
  · exact (not_lt.mp hlive).trans p.clock.load_le_remember

/-- What is accepted stays held when the records are written back and the process adds its
own. -/
theorem Inv.rewritten (h : Inv s rs) (hload : load s.file p.clock.load = some seen)
    (hclock : s.clock ≤ p.clock.load) (hranges : p.Ranges seen) {new : List Record}
    (hnew : ∀ r ∈ new, r = p.record) {a : Shared.Envelope × Int} (ha : a ∈ s.accepted)
    (hlive : p.clock.remember < a.2 + replayTTL) : Holds (p.order ++ new) a.1.jobID a.2 := by
  have hle := p.clock.load_le_remember
  obtain ⟨⟨r, hr, hjob⟩, hall⟩ := h.loaded hload hclock ha (hle.trans_lt hlive)
  refine ⟨⟨r, List.mem_append_left _ (hranges.1.mem_iff.mpr hr), hjob⟩, fun x hx hxj => ?_⟩
  rcases List.mem_append.mp hx with hx | hx
  · exact hall x (hranges.1.mem_iff.mp hx) hxj
  · rw [hnew x hx]
    exact ((h.past a ha).trans hclock).trans hle

/-- The loaded records are records of the file. -/
theorem Inv.valid_order (h : Inv s rs) (hload : load s.file p.clock.load = some seen)
    (hranges : p.Ranges seen) : ∀ r ∈ p.order, r.observedAt.stamp.Valid := by
  intro r hr
  have hseen := hranges.1.mem_iff.mp hr
  rw [h.reads.load_eq hload] at hseen
  exact h.valid r ((mem_of_mem_foldl_keep hseen).resolve_left List.not_mem_nil)

theorem Inv.step (h : Inv s rs) (hsafe : p.Safe) (hstep : step L s p = some t) :
    ∃ rs', Inv t rs' := by
  obtain ⟨hclock, rfl | ⟨seen, hload, hranges, rfl⟩⟩ := step_cases hstep
  · -- the file stays as it is, and what is live after the process was live before
    have hle := hclock.trans p.clock.load_le_remember
    exact ⟨rs, h.reads, h.valid, fun a ha => (h.past a ha).trans hle, h.trimmed,
      fun a ha hlive => h.held a ha (hle.trans_lt hlive), h.apart⟩
  · have horder := h.valid_order hload hranges
    obtain ⟨new, hreads, hnew, hrecord⟩ := reads_fileAfter (L := L) horder hsafe
    have hvalid : ∀ r ∈ p.order ++ new, r.observedAt.stamp.Valid :=
      List.forall_mem_append.mpr ⟨horder, fun r hr => (hnew r hr).2⟩
    have hheld : ∀ a ∈ s.accepted, p.clock.remember < a.2 + replayTTL →
        ∃ recent, recent <:+ p.order ++ new ∧ Holds recent a.1.jobID a.2 := fun a ha hlive =>
      ⟨_, List.suffix_refl _,
        h.rewritten hload hclock hranges (fun r hr => (hnew r hr).1) ha hlive⟩
    have hpast : ∀ a ∈ s.accepted, a.2 ≤ p.clock.remember := fun a ha =>
      ((h.past a ha).trans hclock).trans p.clock.load_le_remember
    refine ⟨p.order ++ new, ?_⟩
    by_cases haccepts : p.Accepts L
    · rw [if_pos haccepts]
      obtain ⟨htrim, hblank⟩ := haccepts.trimmed hsafe
      refine ⟨hreads, hvalid, ?_, ?_, ?_, ?_⟩
      · exact List.forall_mem_append.mpr ⟨hpast, by simp⟩
      · exact List.forall_mem_append.mpr ⟨h.trimmed, by simpa using ⟨htrim, hblank⟩⟩
      · refine List.forall_mem_append.mpr ⟨hheld, List.forall_mem_singleton.mpr fun _ => ?_⟩
        exact ⟨new, List.suffix_append _ _, ⟨_, hrecord haccepts, htrim⟩,
          fun r hr _ => (hnew r hr).1 ▸ le_rfl⟩
      · refine List.pairwise_append.mpr ⟨h.apart, List.pairwise_singleton _ _, fun a ha b hb => ?_⟩
        obtain rfl := List.mem_singleton.mp hb
        exact h.apart_of_accepts hload hclock hranges haccepts ha
    · rw [if_neg haccepts]
      exact ⟨hreads, hvalid, hpast, h.trimmed, hheld, h.apart⟩

end Step

/-- No envelope is accepted twice within two hours by processes whose job ids have no white
space around them and of which none is killed before it has written the records back. -/
theorem noReplay_of_safe (L : Shared.Libs) (clock : Int) (processes : List Process) (s : State)
    (hrun : exec (step L) (.init clock) processes = some s) (hsafe : ∀ p ∈ processes, p.Safe) :
    NoReplay s := by
  have hstep : ∀ (s : State) (p : Process) (t : State), (∃ rs, Inv s rs) → p.Safe →
      step L s p = some t → ∃ rs, Inv t rs := fun _ _ _ ⟨_, h⟩ => h.step
  obtain ⟨rs, h⟩ := exec_invariant hstep ⟨[], inv_init clock⟩ (admits_of_forall hsafe) hrun
  exact h.apart.imp fun hapart heq => hapart (congrArg Shared.Envelope.jobID heq)

/-! ## Runs on one envelope -/

/-- A call that carries an envelope for a console. -/
def openCall (jobID : String) : Shared.Call where
  env :=
    { version := "pmx-agent-v1", jobID := jobID, issuedAt := 0, expiresAt := Shared.hour,
      issuer := "backend", audience := "pmx-console-broker", host := "host",
      command := "console.open", params := some [], signature := "2a" }
  keyset := [⟨[42], Shared.zeroTime⟩]
  agentClass := "pmx-console-broker"
  hostFingerprint := "host"

/-- The record of a job that was accepted at the epoch. -/
def jobRecord : Record := ⟨"job", ⟨0, 0⟩⟩

/-- The envelope is accepted, a process is killed before the last line end, and the envelope
comes again. -/
def cutLineEnd : List Process :=
  [⟨openCall "job", .at 0, [], [], .ends⟩,
   ⟨openCall "job", .at Shared.second, [jobRecord], ["job"],
     .killedInRewrite jobRecord.line.length⟩,
   ⟨openCall "job", .at Shared.hour, [jobRecord], ["job"], .ends⟩]

theorem noReplay_cutLineEnd :
    ∃ s, exec (step Shared.echoLibs) (.init 0) cutLineEnd = some s ∧ s.accepted.length = 1 ∧
      NoReplay s := by
  refine ⟨_, rfl, rfl, noReplay_of_safe Shared.echoLibs 0 cutLineEnd _ rfl ?_⟩
  have htrim : Text.trimSpace "job" = "job" := by decide
  have hlength : (rewriteActive [jobRecord]).1.length ≤ jobRecord.line.length + 1 := by
    decide
  exact List.forall_mem_cons.mpr ⟨htrim, List.forall_mem_cons.mpr ⟨hlength,
    List.forall_mem_singleton.mpr htrim⟩⟩

/-- The envelope comes twice, with a space in front of its job id. -/
def spacedJobID : List Process :=
  [⟨openCall " job", .at 0, [], [], .ends⟩,
   ⟨openCall " job", .at Shared.second, [jobRecord], ["job"], .ends⟩]

/-- The envelope is accepted, a process is killed right after it has truncated the file, and the
envelope comes again. -/
def killedTruncated : List Process :=
  [⟨openCall "job", .at 0, [], [], .ends⟩,
   ⟨openCall "job", .at Shared.second, [jobRecord], ["job"], .killedInRewrite 0⟩,
   ⟨openCall "job", .at (2 * Shared.second), [], [], .ends⟩]

/-- Both runs accept the envelope again within two seconds. -/
theorem accepted_again_spaced_or_killed :
    (∃ s, exec (step Shared.echoLibs) (.init 0) spacedJobID = some s ∧
        s.accepted = [((openCall " job").env, 0), ((openCall " job").env, Shared.second)] ∧
        ¬ NoReplay s) ∧
      ∃ s, exec (step Shared.echoLibs) (.init 0) killedTruncated = some s ∧
        s.accepted = [((openCall "job").env, 0), ((openCall "job").env, 2 * Shared.second)] ∧
        ¬ NoReplay s := by
  have hearly : ∀ {file : Bytes} {clock : Int} {env : Shared.Envelope} {t : Int}, t < replayTTL →
      ¬ NoReplay ⟨file, clock, [(env, 0), (env, t)]⟩ := by
    intro file clock env t ht h
    have hle : 0 + replayTTL ≤ t := (List.pairwise_pair.mp h) rfl
    omega
  exact ⟨⟨_, rfl, rfl, hearly (by decide)⟩, ⟨_, rfl, rfl, hearly (by decide)⟩⟩

end PmxAgents.ConsoleBroker

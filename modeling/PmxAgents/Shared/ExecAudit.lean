import PmxAgents.Hypervisor.Exec
import PmxAgents.Lib.Runs
import PmxAgents.Shared.Audit

/-!
# Commands and their audit entries

The exec layers of the hypervisor and the storage agent write an entry to the audit log
before they start a command and another one after it has ended. Both ignore whether the
entry could be written: after a failed write or sync the command is started all the same.

A run is any interleaving of calls of the two layers. The trail of a run holds the entries
that were appended, the processes that were started and those that have returned, in their
order.

## Implementation notes

An append that fails has not appended its entry, also where the line reached the file and
only the sync failed: the log itself goes on as if there were no such entry.
-/

namespace PmxAgents.Shared.ExecAudit

open Lib Lib.Cbor Lib.Json Lib.Runs Lib.Text Audit Hypervisor

/-! ## Calls -/

inductive Layer where
  | hypervisor
  | storage
  deriving DecidableEq, Repr

/-- A call as the audit log knows it. -/
structure Call where
  layer : Layer
  job : Bytes
  command : Bytes
  deriving DecidableEq, Repr

def writeArray : List String → Bytes
  | [] => utf8 "null"
  | args => utf8 "[" ++ [0x2c].intercalate (args.map fun arg => quote (utf8 arg)) ++ utf8 "]"

/-- A call of the hypervisor's layer: its command has the arguments. -/
def hypervisorCall (job binary : String) (args : List String) : Call :=
  ⟨.hypervisor, utf8 job, utf8 binary ++ utf8 " " ++ writeArray args⟩

/-- What the storage agent may run: its paths by name, and the binaries that are allowed. -/
structure StorageExec where
  paths : List (String × String)
  allowedBinaries : List String

def isSafeArg (arg : String) : Bool :=
  arg.toList.all fun c => c ∉ ";|&\x60$<>()\n\r\x00".toList

/-- A call of the storage agent's layer, unless it is refused. Its command is the name only. -/
def storageCall (exec : StorageExec) (job name : String) (args : List String) : Option Call :=
  match exec.paths.lookup name with
  | none => none
  | some path =>
      if trimSpace path = "" then none
      else if path ∉ exec.allowedBinaries then none
      else if args.all isSafeArg = false then none
      else some ⟨.storage, utf8 job, utf8 name⟩

inductive Request where
  | hypervisor (job binary : String) (args : List String)
  | storage (job name : String) (args : List String)

def Request.call (exec : StorageExec) : Request → Option Call
  | .hypervisor job binary args => some (hypervisorCall job binary args)
  | .storage job name args => storageCall exec job name args

/-- The exit code that a layer reports; only one of them has its own for a deadline. -/
def reportedExit (layer : Layer) (ended : Ended) : ℤ :=
  match layer with
  | .hypervisor => exitCode ended
  | .storage =>
      match ended.failure with
      | none => 0
      | some (.exit code _) => code
      | some .other => -1

/-! ## Appending -/

inductive Fault where
  | write
  | sync
  deriving DecidableEq, Repr

/-- The log after an append, and the entry that was appended: it has a text, and neither the write
nor the sync fails. -/
def append (sha256 : Bytes → Bytes) (l : Audit.Log) (e : Entry) (now : Time)
    (fault : Option Fault) : Audit.Log × Option Entry :=
  let stamped := l.stamped sha256 e now
  if (marshal stamped).isSome ∧ fault = none then (⟨stamped.hash, stamped.seq⟩, some stamped)
  else (l, none)

def preEntry (c : Call) (now : Time) : Entry :=
  ⟨0, now, c.job, c.command, utf8 "pre", -1, 0, [], []⟩

def postEntry (c : Call) (exit durationMs : ℤ) (now : Time) : Entry :=
  ⟨0, now, c.job, c.command, utf8 "post", exit, durationMs, [], []⟩

/-! ## Runs -/

/-- How far a call has come. -/
inductive Phase where
  | entered
  | announced
  | running
  | over (exit : ℤ)
  | reported
  deriving DecidableEq, Repr

inductive Event where
  | appended (e : Entry)
  | started (c : Call)
  | returned (c : Call) (exit : ℤ)
  deriving DecidableEq

structure State where
  log : Audit.Log
  calls : List (Call × Phase)
  trail : List Event

def State.init : State := ⟨⟨[], 0⟩, [], []⟩

inductive Action where
  | enter (request : Request)
  | pre (i : ℕ) (now : Time) (fault : Option Fault)
  | start (i : ℕ)
  /-- The process could not be started. -/
  | unstarted (i : ℕ) (deadline : Bool)
  | finish (i : ℕ) (ended : Ended)
  | post (i : ℕ) (now : Time) (durationMs : ℤ) (fault : Option Fault)

def State.move (s : State) (i : ℕ) (c : Call) (phase : Phase) : State :=
  { s with calls := s.calls.set i (c, phase) }

def State.emit (s : State) (event : Event) : State := { s with trail := s.trail ++ [event] }

/-- Append an entry; what comes of it has no influence on the call. -/
def State.append (sha256 : Bytes → Bytes) (s : State) (e : Entry) (now : Time)
    (fault : Option Fault) : State :=
  let result := ExecAudit.append sha256 s.log e now fault
  { s with log := result.1, trail := s.trail ++ (result.2.map Event.appended).toList }

section Steps
variable (sha256 : Bytes → Bytes) (exec : StorageExec)

def step (s : State) : Action → Option State
  | .enter request =>
      match request.call exec with
      | none => some s
      | some c => some { s with calls := s.calls ++ [(c, .entered)] }
  | .pre i now fault =>
      match s.calls[i]? with
      | some (c, .entered) =>
          some ((s.append sha256 (preEntry c now) now fault).move i c .announced)
      | _ => none
  | .start i =>
      match s.calls[i]? with
      | some (c, .announced) => some ((s.emit (.started c)).move i c .running)
      | _ => none
  | .unstarted i deadline =>
      match s.calls[i]? with
      | some (c, .announced) =>
          some (s.move i c (.over (reportedExit c.layer ⟨"", "", some .other, deadline⟩)))
      | _ => none
  | .finish i ended =>
      match s.calls[i]? with
      | some (c, .running) =>
          some ((s.emit (.returned c (reportedExit c.layer ended))).move i c
            (.over (reportedExit c.layer ended)))
      | _ => none
  | .post i now durationMs fault =>
      match s.calls[i]? with
      | some (c, .over exit) =>
          some ((s.append sha256 (postEntry c exit durationMs now) now fault).move i c .reported)
      | _ => none

end Steps

/-- The append of the action succeeds: its time has a text, and the write and the sync succeed. -/
def Action.Appends : Action → Prop
  | .pre _ now fault => fault = none ∧ now.stamp.Valid
  | .post _ now _ fault => fault = none ∧ now.stamp.Valid
  | _ => True

/-- An entry of the step for the call. -/
structure IsEntryFor (e : Entry) (c : Call) (name : String) (exit : ℤ) : Prop where
  job : e.jobID = c.job
  command : e.command = c.command
  step : e.step = utf8 name
  exit : e.exit = exit

/-- Every started process has its entry before it, and every process that has returned has one
after it, or its call has not come to write it yet. -/
structure Audited (s : State) : Prop where
  announced : ∀ (k : ℕ) c, s.trail[k]? = some (.started c) →
    ∃ j < k, ∃ e, s.trail[j]? = some (.appended e) ∧ IsEntryFor e c "pre" (-1)
  followed : ∀ (k : ℕ) c exit, s.trail[k]? = some (.returned c exit) →
    (∃ j > k, ∃ e, s.trail[j]? = some (.appended e) ∧ IsEntryFor e c "post" exit) ∨
      (c, .over exit) ∈ s.calls

/-! ## Keeping the trail -/

/-- A call that is about to start its process has its entry in the trail. -/
structure Inv (s : State) : Prop extends Audited s where
  prepared : ∀ c, (c, .announced) ∈ s.calls →
    ∃ (j : ℕ) (e : Entry), s.trail[j]? = some (.appended e) ∧ IsEntryFor e c "pre" (-1)

section Keeping
variable {sha256 : Bytes → Bytes} {exec : StorageExec} {s t : State} {c : Call} {i : ℕ}

theorem getElem?_concat_iff {α : Type*} {l : List α} {x y : α} {k : ℕ} :
    (l ++ [x])[k]? = some y ↔ l[k]? = some y ∨ k = l.length ∧ x = y := by
  rw [List.getElem?_append]
  split_ifs with hk
  · constructor
    · exact Or.inl
    · rintro (h | ⟨rfl, -⟩)
      · exact h
      · exact absurd hk (lt_irrefl _)
  · rw [List.getElem?_singleton]
    have hnone : l[k]? = none := List.getElem?_eq_none (not_lt.mp hk)
    rw [hnone]
    split_ifs with hend
    · have hlen : k = l.length := by omega
      simp [hlen]
    · have hlen : k ≠ l.length := by omega
      simp [hlen]

theorem mem_set_of_ne {α : Type*} {l : List α} {i : ℕ} {x y z : α} (hz : z ∈ l)
    (hx : l[i]? = some x) (hne : z ≠ x) : z ∈ l.set i y := by
  obtain ⟨k, hk⟩ := List.mem_iff_getElem?.mp hz
  have hik : i ≠ k := by
    rintro rfl
    exact hne (Option.some.inj (hk.symm.trans hx))
  exact List.mem_iff_getElem?.mpr ⟨k, by rw [List.getElem?_set_ne hik, hk]⟩

/-- The entries before a place stay before it when the trail grows. -/
theorem Inv.emit (h : Inv s) {x : Event}
    (hstarted : ∀ c, x = .started c → (c, .announced) ∈ s.calls)
    (hreturned : ∀ c exit, x ≠ .returned c exit) : Inv (s.emit x) where
  announced k c hk := by
    rcases getElem?_concat_iff.mp hk with hk | ⟨rfl, hx⟩
    · obtain ⟨j, hj, e, he, hentry⟩ := h.announced k c hk
      exact ⟨j, hj, e, getElem?_concat_iff.mpr (Or.inl he), hentry⟩
    · obtain ⟨j, e, he, hentry⟩ := h.prepared c (hstarted c hx)
      obtain ⟨hj, -⟩ := List.getElem?_eq_some_iff.mp he
      exact ⟨j, hj, e, getElem?_concat_iff.mpr (Or.inl he), hentry⟩
  followed k c exit hk := by
    rcases getElem?_concat_iff.mp hk with hk | ⟨rfl, hx⟩
    · rcases h.followed k c exit hk with ⟨j, hj, e, he, hentry⟩ | hpending
      · exact Or.inl ⟨j, hj, e, getElem?_concat_iff.mpr (Or.inl he), hentry⟩
      · exact Or.inr hpending
    · exact absurd hx (hreturned c exit)
  prepared c hc := by
    obtain ⟨j, e, he, hentry⟩ := h.prepared c hc
    exact ⟨j, e, getElem?_concat_iff.mpr (Or.inl he), hentry⟩

/-- A call moves on: its entry is there if it is announced, and a process that has returned is
followed by its entry when its call leaves it. -/
theorem Inv.move (h : Inv s) {phase phase' : Phase} (hc : s.calls[i]? = some (c, phase))
    (hannounced : phase' = .announced →
      ∃ (j : ℕ) (e : Entry), s.trail[j]? = some (.appended e) ∧ IsEntryFor e c "pre" (-1))
    (hover : ∀ (exit : ℤ) (k : ℕ), phase = .over exit → s.trail[k]? = some (.returned c exit) →
      ∃ j > k, ∃ e, s.trail[j]? = some (.appended e) ∧ IsEntryFor e c "post" exit) :
    Inv (s.move i c phase') where
  announced := h.announced
  followed k c' exit hk := by
    rcases h.followed k c' exit hk with hfollowed | hpending
    · exact Or.inl hfollowed
    · by_cases heq : (c', Phase.over exit) = (c, phase)
      · obtain ⟨rfl, rfl⟩ := Prod.mk.inj heq
        exact Or.inl (hover exit k rfl hk)
      · exact Or.inr (mem_set_of_ne hpending hc heq)
  prepared c' hc' := by
    rcases List.mem_or_eq_of_mem_set hc' with hold | hnew
    · exact h.prepared c' hold
    · obtain ⟨rfl, hphase⟩ := Prod.mk.inj hnew
      exact hannounced hphase.symm

theorem append_succeeds (sha256 : Bytes → Bytes) (s : State) (e : Entry) (now : Time)
    {fault : Option Fault} (htime : e.timestamp = now) (h : fault = none ∧ now.stamp.Valid) :
    ∃ log, s.append sha256 e now fault =
      ⟨log, s.calls, s.trail ++ [.appended (s.log.stamped sha256 e now)]⟩ := by
  have hstamp : (s.log.stamped sha256 e now).timestamp = now := by
    rw [Audit.Log.stamped, htime]
    exact ite_self now
  have hmarshal : (marshal (s.log.stamped sha256 e now)).isSome := by
    rw [marshal, hstamp, if_pos h.2]
    rfl
  have happend : ExecAudit.append sha256 s.log e now fault =
      (⟨(s.log.stamped sha256 e now).hash, (s.log.stamped sha256 e now).seq⟩,
        some (s.log.stamped sha256 e now)) := by
    rw [ExecAudit.append, if_pos ⟨hmarshal, h.1⟩]
  refine ⟨⟨(s.log.stamped sha256 e now).hash, (s.log.stamped sha256 e now).seq⟩, ?_⟩
  rw [State.append, happend]
  rfl

/-- The log of a state has no part in what is asked of its trail. -/
theorem Inv.withLog (h : Inv s) (log : Audit.Log) : Inv ⟨log, s.calls, s.trail⟩ :=
  ⟨⟨h.announced, h.followed⟩, h.prepared⟩

theorem IsEntryFor.stamped {e : Entry} {name : String} {exit : ℤ} (h : IsEntryFor e c name exit)
    (l : Audit.Log) (now : Time) : IsEntryFor (l.stamped sha256 e now) c name exit :=
  ⟨h.job, h.command, h.step, h.exit⟩

theorem isEntryFor_preEntry (c : Call) (now : Time) : IsEntryFor (preEntry c now) c "pre" (-1) :=
  ⟨rfl, rfl, rfl, rfl⟩

theorem isEntryFor_postEntry (c : Call) (exit durationMs : ℤ) (now : Time) :
    IsEntryFor (postEntry c exit durationMs now) c "post" exit := ⟨rfl, rfl, rfl, rfl⟩

theorem Inv.step {a : Action} (h : Inv s) (hok : a.Appends)
    (hstep : step sha256 exec s a = some t) : Inv t := by
  cases a with
  | enter request =>
      rw [ExecAudit.step] at hstep
      cases hcall : request.call exec with
      | none =>
          simp only [hcall] at hstep
          obtain rfl := Option.some.inj hstep
          exact h
      | some c =>
          simp only [hcall] at hstep
          obtain rfl := Option.some.inj hstep
          refine ⟨⟨h.announced, fun k c' exit hk => ?_⟩, fun c' hc' => ?_⟩
          · exact (h.followed k c' exit hk).imp_right (List.mem_append_left _)
          · rcases List.mem_append.mp hc' with hc' | hc'
            · exact h.prepared c' hc'
            · exact absurd (Prod.mk.inj (List.mem_singleton.mp hc')).2 nofun
  | pre i now fault =>
      rw [ExecAudit.step] at hstep
      split at hstep
      · rename_i c hc
        obtain rfl := Option.some.inj hstep
        obtain ⟨log, happend⟩ := append_succeeds sha256 s (preEntry c now) now rfl hok
        rw [happend]
        have hemit : Inv (s.emit (.appended (s.log.stamped sha256 (preEntry c now) now))) :=
          h.emit nofun nofun
        have hentry : IsEntryFor (s.log.stamped sha256 (preEntry c now) now) c "pre" (-1) :=
          (isEntryFor_preEntry c now).stamped s.log now
        refine (hemit.withLog log).move hc (fun _ => ⟨s.trail.length, _, ?_, hentry⟩) nofun
        exact getElem?_concat_iff.mpr (Or.inr ⟨rfl, rfl⟩)
      · cases hstep
  | start i =>
      rw [ExecAudit.step] at hstep
      split at hstep
      · rename_i c hc
        obtain rfl := Option.some.inj hstep
        have hemit : Inv (s.emit (.started c)) :=
          h.emit (fun c' heq => by
            obtain rfl := Event.started.inj heq
            exact List.mem_of_getElem? hc) nofun
        exact hemit.move hc nofun nofun
      · cases hstep
  | unstarted i deadline =>
      rw [ExecAudit.step] at hstep
      split at hstep
      · rename_i c hc
        obtain rfl := Option.some.inj hstep
        exact h.move hc nofun nofun
      · cases hstep
  | finish i ended =>
      rw [ExecAudit.step] at hstep
      split at hstep
      · rename_i c hc
        obtain rfl := Option.some.inj hstep
        have hmoved : Inv (s.move i c (.over (reportedExit c.layer ended))) := h.move hc nofun nofun
        -- the call waits for its entry from here on
        have hpending : (c, Phase.over (reportedExit c.layer ended)) ∈
            s.calls.set i (c, .over (reportedExit c.layer ended)) := by
          obtain ⟨hi, -⟩ := List.getElem?_eq_some_iff.mp hc
          exact List.mem_set hi _
        refine ⟨⟨fun k c' hk => ?_, fun k c' exit hk => ?_⟩, fun c' hc' => ?_⟩
        · rcases getElem?_concat_iff.mp hk with hk | ⟨-, hx⟩
          · obtain ⟨j, hj, e, he, hentry⟩ := hmoved.announced k c' hk
            exact ⟨j, hj, e, getElem?_concat_iff.mpr (Or.inl he), hentry⟩
          · cases hx
        · rcases getElem?_concat_iff.mp hk with hk | ⟨-, hx⟩
          · rcases hmoved.followed k c' exit hk with ⟨j, hj, e, he, hentry⟩ | hin
            · exact Or.inl ⟨j, hj, e, getElem?_concat_iff.mpr (Or.inl he), hentry⟩
            · exact Or.inr hin
          · obtain ⟨rfl, rfl⟩ := Event.returned.inj hx
            exact Or.inr hpending
        · obtain ⟨j, e, he, hentry⟩ := hmoved.prepared c' hc'
          exact ⟨j, e, getElem?_concat_iff.mpr (Or.inl he), hentry⟩
      · cases hstep
  | post i now durationMs fault =>
      rw [ExecAudit.step] at hstep
      split at hstep
      · rename_i c exit hc
        obtain rfl := Option.some.inj hstep
        obtain ⟨log, happend⟩ :=
          append_succeeds sha256 s (postEntry c exit durationMs now) now rfl hok
        rw [happend]
        have hemit : Inv (s.emit (.appended
            (s.log.stamped sha256 (postEntry c exit durationMs now) now))) := h.emit nofun nofun
        have hentry : IsEntryFor (s.log.stamped sha256 (postEntry c exit durationMs now) now)
            c "post" exit := (isEntryFor_postEntry c exit durationMs now).stamped s.log now
        refine (hemit.withLog log).move hc nofun fun exit' k hphase hk => ?_
        obtain rfl := Phase.over.inj hphase
        rcases getElem?_concat_iff.mp hk with hk | ⟨-, hx⟩
        · obtain ⟨hlt, -⟩ := List.getElem?_eq_some_iff.mp hk
          exact ⟨s.trail.length, hlt, _, getElem?_concat_iff.mpr (Or.inr ⟨rfl, rfl⟩), hentry⟩
        · cases hx
      · cases hstep

end Keeping

/-- Every run in which all appends succeed is audited. -/
theorem audited_of_appends (sha256 : Bytes → Bytes) (exec : StorageExec) (actions : List Action)
    (s : State) (happends : ∀ a ∈ actions, a.Appends)
    (hrun : Runs.exec (step sha256 exec) State.init actions = some s) : Audited s := by
  have hinit : Inv State.init := by
    refine ⟨⟨fun k c hk => ?_, fun k c exit hk => ?_⟩, nofun⟩
    · simp [State.init] at hk
    · simp [State.init] at hk
  exact (exec_invariant (fun _ _ _ hinv hok hstep => hinv.step hok hstep) hinit
    (admits_of_forall happends) hrun).1

/-- The call `qm list` of a job: it is entered, its first entry is written as far as the fault lets
it, and its process is started, ends and has its second entry written. -/
def listActions (fault : Option Fault) : List Action :=
  [.enter (.hypervisor "job" "qm" ["list"]), .pre 0 ⟨0, 0⟩ fault, .start 0,
    .finish 0 ⟨"", "", none, false⟩, .post 0 ⟨0, 0⟩ 5 none]

/-- The state after the call. -/
def listed (fault : Option Fault) : Option State :=
  Runs.exec (step (fun _ => []) ⟨[], []⟩) State.init (listActions fault)

/-- A call all of whose entries are written is audited. -/
theorem audited_list : (listed none).isSome ∧ ∀ s, listed none = some s → Audited s := by
  refine ⟨rfl, fun s hrun => ?_⟩
  refine audited_of_appends (fun _ => []) ⟨[], []⟩ (listActions none) s (fun a ha => ?_) hrun
  have htime : (Time.mk 0 0).stamp.Valid := by decide
  simp only [listActions, List.mem_cons, List.not_mem_nil, or_false] at ha
  rcases ha with rfl | rfl | rfl | rfl | rfl
  · trivial
  · exact ⟨rfl, htime⟩
  · trivial
  · trivial
  · exact ⟨rfl, htime⟩

/-- The first entry could not be written, and the process was started. -/
theorem unwritten_started : ∃ s, listed (some .write) = some s ∧ ¬ Audited s := by
  refine ⟨_, rfl, fun h => ?_⟩
  obtain ⟨j, hj, -⟩ := h.announced 0 (hypervisorCall "job" "qm" ["list"]) rfl
  exact absurd hj (Nat.not_lt_zero j)

end PmxAgents.Shared.ExecAudit

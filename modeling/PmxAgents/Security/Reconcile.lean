import PmxAgents.Security.Hardening

/-!
# Reconciliation of stopped jobs

Reconciliation looks at the operations of a job that are marked as running, and writes the job
only if one of them has changed. A job that was stopped while no operation was marked so stays
as it is: before its first operation, between two of them, and before its end is written.
-/

namespace PmxAgents.Security.Hardening

open Lib Lib.Dialogue

/-! ## One job -/

section Operations
variable {inspector : Inspector}

def Inactive (inspector : Inspector) : Prop :=
  ∀ unit scope, inspector unit = .ok scope → scope.isActive = false

/-- With no scope active an operation has changed exactly if it was running, and none goes on. -/
theorem reconcileOp_flags (hinactive : Inactive inspector) (op : OperationState) :
    (reconcileOp inspector op).2.changed = (op.status == .running) ∧
      (reconcileOp inspector op).2.running = false := by
  rw [reconcileOp]
  by_cases hrunning : op.status = .running
  · rw [if_neg (not_not_intro hrunning), hrunning]
    split_ifs with hunit
    · exact ⟨rfl, rfl⟩
    · split
      · exact ⟨rfl, rfl⟩
      · exact ⟨rfl, rfl⟩
      · next scope hscope =>
          rw [if_neg (by simp [hinactive _ _ hscope])]
          split_ifs
          · exact ⟨rfl, rfl⟩
          · exact ⟨rfl, rfl⟩
  · rw [if_pos hrunning]
    exact ⟨(beq_eq_false_iff_ne.mpr hrunning).symm, rfl⟩

theorem reconcileOne_flags (hinactive : Inactive inspector) (ops : List OperationState) :
    (reconcileOne inspector ops).2.changed = (ops.any fun op => op.status == .running) ∧
      (reconcileOne inspector ops).2.running = false := by
  induction ops with
  | nil => exact ⟨rfl, rfl⟩
  | cons op ops ih =>
      obtain ⟨hchanged, hrunning⟩ := reconcileOp_flags hinactive op
      constructor
      · rw [List.any_cons, ← hchanged, ← ih.1]
        rfl
      · calc (reconcileOne inspector (op :: ops)).2.running
            = ((reconcileOp inspector op).2.running ||
                (reconcileOne inspector ops).2.running) := rfl
          _ = false := by rw [hrunning, ih.2]; rfl

/-- A job none of whose operations goes on comes to an end. -/
theorem settle_status (st : ApplyState) (ops : List OperationState) {flags : Flags}
    (h : flags.running = false) : (settle st ops flags).status ≠ .running := by
  rw [settle, if_neg (c := flags.running = true) (by rw [h]; exact Bool.false_ne_true)]
  split_ifs
  all_goals exact nofun

end Operations

/-! ## The directories that jobs leave -/

section Directory
variable {signatures : Except String Unit} {d d' : Jobs}

/-- Every file of a job has a state in it. -/
def Decodable (d : Jobs) : Prop :=
  ∀ e ∈ d, isJob e.1 = true → ∃ st, e.2 = .file (some st)

theorem mem_put {d : Jobs} {name : String} {entry : Entry} {e : String × Entry}
    (h : e ∈ d.put name entry) : e = (name, entry) ∨ e ∈ d := by
  rw [Jobs.put, List.mem_orderedInsert] at h
  exact h.imp_right List.mem_of_mem_filter

/-- A temporary file is not the file of a job. -/
theorem isJob_tmp (path : String) : isJob (path ++ ".tmp") = false := by
  have hext : ext (path ++ ".tmp").toList = ".tmp".toList := by
    rw [ext, if_pos (by simp)]
    simp
  rw [isJob, hext]
  decide

theorem decodable_of_effect {q : Query} {r : Reply} (h : Effect d q r d') (hd : Decodable d) :
    Decodable d' := by
  cases q with
  | persist st =>
      rw [Effect] at h
      split_ifs at h with hdone
      · subst h
        intro e he hjob
        rcases mem_put he with rfl | he
        · exact ⟨st, rfl⟩
        · exact hd e (List.mem_of_mem_filter he) hjob
      · rcases h with rfl | ⟨part, rfl⟩
        · exact hd
        · intro e he hjob
          rcases mem_put he with rfl | he
          · rw [isJob_tmp] at hjob
            cases hjob
          · exact hd e he hjob
  | materialize op => exact (show d' = d from h) ▸ hd
  | runRoot jobID name command args hardening => exact (show d' = d from h) ▸ hd

theorem decodable_of_effects {log : Log Query Reply} (h : Effects Effect d log d')
    (hd : Decodable d) : Decodable d' := by
  induction h with
  | nil d => exact hd
  | cons first rest ih => exact ih (decodable_of_effect first hd)

theorem Stopped.decodable (h : Stopped signatures d) : Decodable d := by
  induction h with
  | fresh => exact nofun
  | attempt before run effects ih => exact decodable_of_effects effects ih

end Directory

/-! ## All jobs -/

section Jobs
variable {inspector : Inspector} {disk : Disk}

/-- A job with the status running. -/
def Running (e : String × Entry) : Prop :=
  isJob e.1 = true ∧ ∃ st, e.2 = .file (some st) ∧ st.status = .running

/-- One of the operations of the job is marked as running. -/
def InOperation (e : String × Entry) : Prop :=
  ∃ st, e.2 = .file (some st) ∧ ∃ op ∈ st.operations, op.status = .running

/-- The running jobs are reached: their files and those of the jobs before them can be read, and
they can be written. -/
structure Reached (disk : Disk) (d : Jobs) : Prop where
  loads : ∀ e ∈ d, Running e → disk.readFile e.1 = none
  loadsBefore : d.Pairwise fun e e' => Running e' → isJob e.1 = true → disk.readFile e.1 = none
  writes : ∀ e ∈ d, Running e → disk.writeFile e.1 = none

theorem reached_cons {e : String × Entry} {rest : Jobs} :
    Reached disk (e :: rest) ↔
      ((Running e → disk.readFile e.1 = none ∧ disk.writeFile e.1 = none) ∧
        ∀ e' ∈ rest, Running e' → isJob e.1 = true → disk.readFile e.1 = none) ∧
      Reached disk rest := by
  constructor
  · rintro ⟨hloads, hbefore, hwrites⟩
    obtain ⟨hhead, hbefore⟩ := List.pairwise_cons.mp hbefore
    obtain ⟨hload, hloads⟩ := List.forall_mem_cons.mp hloads
    obtain ⟨hwrite, hwrites⟩ := List.forall_mem_cons.mp hwrites
    exact ⟨⟨fun hr => ⟨hload hr, hwrite hr⟩, hhead⟩, hloads, hbefore, hwrites⟩
  · rintro ⟨⟨hself, hhead⟩, hloads, hbefore, hwrites⟩
    exact ⟨List.forall_mem_cons.mpr ⟨fun hr => (hself hr).1, hloads⟩,
      List.pairwise_cons.mpr ⟨hhead, hbefore⟩,
      List.forall_mem_cons.mpr ⟨fun hr => (hself hr).2, hwrites⟩⟩

theorem reached_of_none {d : Jobs} (h : ∀ e ∈ d, ¬ Running e) : Reached disk d := by
  refine ⟨fun e he hr => absurd hr (h e he), ?_, fun e he hr => absurd hr (h e he)⟩
  exact List.pairwise_of_forall_mem_list fun e _ e' he' hr => absurd hr (h e' he')

section Entries
variable {name : String} {entry entry' : Entry}

/-- The pass ends at an entry that it cannot read or write. -/
theorem reconcileEntry_error {err : String}
    (hdecodes : isJob name = true → ∃ st, entry = .file (some st))
    (h : reconcileEntry inspector disk name entry = .error err) :
    isJob name = true ∧
      (disk.readFile name ≠ none ∨ (Running (name, entry) ∧ disk.writeFile name ≠ none)) := by
  rw [reconcileEntry.eq_def] at h
  split_ifs at h with hskip
  have hjob : isJob name = true := by simpa using fun hno => hskip (Or.inr hno)
  refine ⟨hjob, ?_⟩
  obtain ⟨st, rfl⟩ := hdecodes hjob
  cases hread : disk.readFile name with
  | some err => exact Or.inl nofun
  | none =>
      simp only [hread] at h
      split_ifs at h with hkept
      cases hwrite : disk.writeFile name with
      | none =>
          rw [hwrite] at h
          cases h
      | some err =>
          have hrunning : st.status = .running := by simpa using fun hno => hkept (Or.inl hno)
          exact Or.inr ⟨⟨hjob, st, rfl, hrunning⟩, nofun⟩

/-- An entry that the pass gets over is running afterwards exactly if it is a running job with no
operation marked so. -/
theorem reconcileEntry_ok (hinactive : Inactive inspector)
    (hdecodes : isJob name = true → ∃ st, entry = .file (some st))
    (h : reconcileEntry inspector disk name entry = .ok entry') :
    (Running (name, entry') ↔ Running (name, entry) ∧ ¬ InOperation (name, entry)) ∧
      (isJob name = true → disk.readFile name = none) ∧
      (Running (name, entry) → InOperation (name, entry) → disk.writeFile name = none) := by
  by_cases hjob : isJob name = true
  · obtain ⟨st, rfl⟩ := hdecodes hjob
    have hrunning : Running (name, .file (some st)) ↔ st.status = .running :=
      ⟨fun ⟨_, st', heq, hst⟩ => by cases heq; exact hst, fun hst => ⟨hjob, st, rfl, hst⟩⟩
    have hoperates : InOperation (name, .file (some st)) ↔
        (reconcileOne inspector st.operations).2.changed = true := by
      rw [(reconcileOne_flags hinactive st.operations).1, List.any_eq_true]
      constructor
      · rintro ⟨st', heq, op, hop, hst⟩
        cases heq
        exact ⟨op, hop, beq_iff_eq.mpr hst⟩
      · rintro ⟨op, hop, hst⟩
        exact ⟨st, rfl, op, hop, beq_iff_eq.mp hst⟩
    rw [reconcileEntry.eq_def, if_neg (by simp [hjob])] at h
    cases hread : disk.readFile name with
    | some err =>
        rw [hread] at h
        cases h
    | none =>
        simp only [hread] at h
        split_ifs at h with hkept
        · obtain rfl := Except.ok.inj h
          rw [hrunning, hoperates]
          refine ⟨⟨fun hst => ⟨hst, ?_⟩, And.left⟩, fun _ => rfl, fun hst hchanged => ?_⟩
          · rcases hkept with hno | hno
            · exact absurd hst hno
            · simp [hno]
          · rcases hkept with hno | hno
            · exact absurd hst hno
            · rw [hno] at hchanged
              cases hchanged
        · cases hwrite : disk.writeFile name with
          | some err =>
              rw [hwrite] at h
              cases h
          | none =>
              rw [hwrite] at h
              obtain rfl := Except.ok.inj h
              refine ⟨⟨?_, ?_⟩, fun _ => rfl, fun _ _ => rfl⟩
              · rintro ⟨-, st', heq, hst⟩
                cases heq
                exact absurd hst (settle_status _ _ (reconcileOne_flags hinactive _).2)
              · rintro ⟨-, hno⟩
                exact absurd (hoperates.mpr (by simpa using fun h => hkept (Or.inr h))) hno
  · rw [reconcileEntry.eq_def, if_pos (Or.inr (by simpa using hjob))] at h
    obtain rfl := Except.ok.inj h
    have hno : ¬ Running (name, entry) := fun hr => hjob hr.1
    exact ⟨by simp [hno], fun h => absurd h hjob, fun hr => absurd hr hno⟩

end Entries

/-- No job is running after the pass exactly if every running job was reached and had an
operation marked as running. -/
theorem reconcileEntries_iff (hinactive : Inactive inspector) {d : Jobs} (hd : Decodable d) :
    (∀ e ∈ (reconcileEntries inspector disk d).1, ¬ Running e) ↔
      Reached disk d ∧ ∀ e ∈ d, Running e → InOperation e := by
  induction d with
  | nil => exact ⟨fun _ => ⟨⟨nofun, .nil, nofun⟩, nofun⟩, fun _ => nofun⟩
  | cons e rest ih =>
      obtain ⟨name, entry⟩ := e
      have hdecodes : isJob name = true → ∃ st, entry = .file (some st) :=
        hd (name, entry) List.mem_cons_self
      have ih := ih fun e he => hd e (List.mem_cons_of_mem _ he)
      cases hentry : reconcileEntry inspector disk name entry with
      | error err =>
          have hresult : (reconcileEntries inspector disk ((name, entry) :: rest)).1 =
              (name, entry) :: rest := by rw [reconcileEntries, hentry]
          obtain ⟨hjob, hstuck⟩ := reconcileEntry_error hdecodes hentry
          rw [hresult]
          refine ⟨fun hnone => ⟨reached_of_none hnone, fun e he hr => absurd hr (hnone e he)⟩, ?_⟩
          rintro ⟨hreached, -⟩
          obtain ⟨⟨hself, hhead⟩, -⟩ := reached_cons.mp hreached
          -- the entry is not running, and so the pass ends here because it cannot be read
          have hidle : ¬ Running (name, entry) := by
            intro hr
            rcases hstuck with hread | ⟨-, hwrite⟩
            · exact hread (hself hr).1
            · exact hwrite (hself hr).2
          have hread : disk.readFile name ≠ none := hstuck.resolve_right fun h => hidle h.1
          exact List.forall_mem_cons.mpr ⟨hidle, fun e he hr => hread (hhead e he hr hjob)⟩
      | ok entry' =>
          have hresult : (reconcileEntries inspector disk ((name, entry) :: rest)).1 =
              (name, entry') :: (reconcileEntries inspector disk rest).1 := by
            rw [reconcileEntries, hentry]
          obtain ⟨hafter, hread, hwrite⟩ := reconcileEntry_ok hinactive hdecodes hentry
          rw [hresult, List.forall_mem_cons, hafter, ih, reached_cons, List.forall_mem_cons]
          constructor
          · rintro ⟨hhead, hreached, hrest⟩
            have hoperates : Running (name, entry) → InOperation (name, entry) :=
              fun hr => not_not.mp fun hno => hhead ⟨hr, hno⟩
            exact ⟨⟨⟨fun hr => ⟨hread hr.1, hwrite hr (hoperates hr)⟩, fun _ _ _ => hread⟩,
              hreached⟩, hoperates, hrest⟩
          · rintro ⟨⟨-, hreached⟩, hoperates, hrest⟩
            exact ⟨fun ⟨hr, hno⟩ => hno (hoperates hr), hreached, hrest⟩

end Jobs

/-- After jobs that were stopped anywhere, and with no scope active, reconciliation leaves no job
running exactly if it gets to every running job and finds an operation of it marked as running. -/
theorem reconciled_iff (signatures : Except String Unit) (d : Jobs) (hd : Stopped signatures d)
    (inspector : Inspector) (hinactive : Inactive inspector) (disk : Disk) :
    (∀ e ∈ (reconcileApplyStates inspector disk d).1, ¬ Running e) ↔
      (∀ e ∈ d, Running e → disk.readDir = none) ∧ Reached disk d ∧
        ∀ e ∈ d, Running e → InOperation e := by
  rw [reconcileApplyStates]
  cases hlist : disk.readDir with
  | some err =>
      constructor
      · intro hnone
        exact ⟨fun e he hr => absurd hr (hnone e he), reached_of_none hnone,
          fun e he hr => absurd hr (hnone e he)⟩
      · rintro ⟨hlisted, -⟩ e he hr
        cases hlisted e he hr
  | none =>
      rw [reconcileEntries_iff hinactive hd.decodable]
      exact ⟨fun h => ⟨fun _ _ _ => rfl, h⟩, And.right⟩

/-! ## A job that is stopped before its first operation -/

section Stop

def params₀ : ApplyParams := ⟨"job-1", "cis_level1", []⟩

/-- Nothing is left of any scope. -/
def noScopes : Inspector := fun _ => .error .notFound

theorem inactive_noScopes : Inactive noScopes := nofun

def willing : Disk := ⟨none, fun _ => none, fun _ => none⟩

def begun : ApplyState := newApplyTracker "job-1" "cis_level1" ["disable_rpcbind", "ssh_level1"]

/-- The job while the first operation is checked. -/
def checking : ApplyState :=
  begun.markOpRunning "disable_rpcbind" "pmx-sec-apply-job-1-disable_rpcbind-check.scope"

def holding (st : ApplyState) : Jobs := [("job-1.json", .file (some st))]

theorem begins_apply {log : Log Query Reply} {result : Option (Except ApplyError ApplyResult)}
    (h : Begins (applyOps begun ⟨[], []⟩ ["disable_rpcbind", "ssh_level1"]) log result) :
    Begins (apply (.ok ()) params₀) ((.persist begun, .done) :: log) result := by
  have hops : resolveOperations "cis_level1" [] = .ok ["disable_rpcbind", "ssh_level1"] := by
    decide
  have hunit : scopeUnitName "job-1" "state" = .ok "pmx-sec-apply-job-1-state.scope" := by
    decide
  have hjob : (if params₀.jobID = "" then "local" else params₀.jobID) = "job-1" := by decide
  rw [apply.eq_def]
  simp only [hjob]
  rw [show resolveOperations params₀.profile params₀.operations = _ from hops, hunit]
  exact Begins.ask Reply.done h

theorem effect_begun : Effect [] (.persist begun) .done (holding begun) := by
  rw [Effect, if_pos rfl]
  decide

theorem effect_checking : Effect (holding begun) (.persist checking) .done (holding checking) := by
  rw [Effect, if_pos rfl]
  decide

/-- A job that was stopped while its first operation was checked. -/
theorem stopped_checking : Stopped (.ok ()) (holding checking) := by
  have hunit : scopeUnitName begun.jobID ("disable_rpcbind" ++ "-check") =
      .ok "pmx-sec-apply-job-1-disable_rpcbind-check.scope" := by decide
  have hrun : Begins (applyOps begun ⟨[], []⟩ ["disable_rpcbind", "ssh_level1"])
      [(.materialize "disable_rpcbind", .script "disable_rpcbind.sh"), (.persist checking, .done)]
      none := by
    rw [applyOps]
    refine .ask _ ?_
    simp only [Reply.error, hunit]
    exact .ask Reply.done (.cut _)
  exact .attempt .fresh (begins_apply hrun)
    (.cons effect_begun (.cons rfl (.cons effect_checking (.nil _))))

/-- That job is brought to an end. -/
theorem reconciled_checking :
    Stopped (.ok ()) (holding checking) ∧ Inactive noScopes ∧
      ∀ e ∈ (reconcileApplyStates noScopes willing (holding checking)).1, ¬ Running e := by
  refine ⟨stopped_checking, inactive_noScopes,
    (reconciled_iff (.ok ()) _ stopped_checking noScopes inactive_noScopes willing).mpr ?_⟩
  refine ⟨fun _ _ _ => rfl, ⟨fun _ _ _ => rfl, List.pairwise_singleton _ _, fun _ _ _ => rfl⟩, ?_⟩
  intro e he _
  obtain rfl := List.mem_singleton.mp he
  exact ⟨checking, rfl, _, List.mem_cons_self, rfl⟩

/-- A job that was stopped before its first operation keeps the status running. -/
theorem begun_stays_running :
    Stopped (.ok ()) (holding begun) ∧ Inactive noScopes ∧
      ∃ e ∈ (reconcileApplyStates noScopes willing (holding begun)).1, Running e := by
  refine ⟨.attempt .fresh (begins_apply (.cut _)) (.cons effect_begun (.nil _)), inactive_noScopes,
    ("job-1.json", .file (some begun)), ?_, ⟨?_, begun, rfl, rfl⟩⟩
  · decide
  · decide

end Stop

end PmxAgents.Security.Hardening

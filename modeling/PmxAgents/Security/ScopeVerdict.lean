import Mathlib.Algebra.Group.Int.Defs
import Mathlib.Data.List.Infix
import PmxAgents.Lib.Text
import PmxAgents.Security.Reconcile

/-!
# The verdict of a reconciled job

What `systemctl show` tells of the scope of an operation is read from lines `key=value`. An
operation whose scope is no longer active is taken for successful if the exit status is 0 or the
result is `success`; a property that is missing or is no number counts as the exit status 0.
-/

namespace PmxAgents.Security.Hardening

open Lib

/-! ## What `systemctl` shows -/

/-- The lines `key=value` of an output. -/
def kvLines (raw : String) : List (String × String) :=
  (Text.split '\n' raw.toList).filterMap fun line =>
    let line := Text.trim line
    if '=' ∈ line then
      some (String.ofList (Text.trim (line.takeWhile (· ≠ '='))),
        String.ofList (Text.trim ((line.dropWhile (· ≠ '=')).drop 1)))
    else none

/-- The value of a key. Of several lines the last one counts. -/
def parseSystemdKV (raw key : String) : Option String := (kvLines raw).reverse.lookup key

/-- `strconv.Atoi` with its error ignored. -/
def atoi (s : List Char) : ℤ :=
  match Numeral.signed s with
  | none => 0
  | some n => if n < -2 ^ 63 then -2 ^ 63 else if 2 ^ 63 ≤ n then 2 ^ 63 - 1 else n

def property (raw key : String) : String := Text.trimSpace ((parseSystemdKV raw key).getD "")

def scopeOf (raw : String) : ScopeState where
  activeState := property raw "ActiveState"
  subState := property raw "SubState"
  result := property raw "Result"
  execMainStatus := atoi (property raw "ExecMainStatus").toList

theorem execMainStatus_scopeOf (raw : String) :
    (scopeOf raw).execMainStatus = atoi (property raw "ExecMainStatus").toList := by
  rw [scopeOf]

theorem result_scopeOf (raw : String) : (scopeOf raw).result = property raw "Result" := by
  rw [scopeOf]

/-- The output of `systemctl show` for a unit, or its error and what it printed. -/
abbrev ShowRun := String → Except (String × String) String

def systemctlInspector (run : ShowRun) : Inspector := fun unit =>
  match run unit with
  | .error (err, out) =>
      let msg := Casing.toLower (Text.trimSpace out)
      if "could not be found".toList <:+: msg.toList ∨ "not found".toList <:+: msg.toList then
        .error .notFound
      else .error (.other ("hardening.reconcile: systemctl show " ++ unit ++ ": " ++ err ++ ": " ++
        Text.trimSpace out))
  | .ok out => .ok (scopeOf out)

/-! ## Ends of an operation -/

/-- The scope is inactive, with the exit status 0 and the result `success`. -/
def EndedWell (raw : String) : Prop :=
  Casing.equalFold (property raw "ActiveState") "inactive" ∧
    (parseSystemdKV raw "ExecMainStatus").bind
      (fun v => Numeral.signed (Text.trim v.toList)) = some 0 ∧
    Casing.equalFold (property raw "Result") "success"

def badResults : List String := ["timeout", "signal", "core-dump", "oom-kill"]

/-- The scope ended by a timeout, a signal or a lack of memory, or its status is not told. -/
def EndedBadly (raw : String) : Prop :=
  property raw "Result" ∈ badResults ∨ parseSystemdKV raw "ExecMainStatus" = none

/-- The operation is taken for ended with success. -/
def Passes (inspector : Inspector) (op : OperationState) : Prop :=
  Text.trimSpace op.unit ≠ "" ∧ ∃ scope, inspector op.unit = .ok scope ∧ scope.isActive = false ∧
    (scope.execMainStatus = 0 ∨ Casing.equalFold scope.result "success")

/-- The operation was successful, or is taken for it. -/
def Accepted (inspector : Inspector) (op : OperationState) : Prop :=
  op.status = .success ∨ op.status = .running ∧ Passes inspector op

/-- The operation was successful, or its scope ended well. -/
def Good (run : ShowRun) (op : OperationState) : Prop :=
  op.status = .success ∨ op.status = .running ∧ ∃ raw, run op.unit = .ok raw ∧ EndedWell raw

/-- A job is successful only if its operations are, and no bad end is turned into a success. -/
structure Sound (run : ShowRun) (st st' : ApplyState) : Prop where
  job : st'.status = .success → ∀ op ∈ st.operations, Good run op
  operations : ∀ (i : ℕ) (op op' : OperationState) (raw : String), st.operations[i]? = some op →
    st'.operations[i]? = some op' → op.status = .running → run op.unit = .ok raw →
    EndedBadly raw → op'.status ≠ .success

/-- The status is told, and it is not 0 after a bad end. -/
def Told (raw : String) : Prop :=
  (parseSystemdKV raw "ExecMainStatus").isSome ∧
    (property raw "Result" ∈ badResults → atoi (property raw "ExecMainStatus").toList ≠ 0)

/-- Neither the exit status nor the result that is printed shows a success. -/
def ShowsFailure (raw : String) : Prop :=
  atoi (property raw "ExecMainStatus").toList ≠ 0 ∧
    Casing.equalFold (property raw "Result") "success" = false

/-- What keeps a job from a success: the operation is over without one, or it runs and its unit has
no name, is not shown, is still active or shows a failure. -/
def Unfinished (run : ShowRun) (op : OperationState) : Prop :=
  op.status ≠ .success ∧ (op.status = .running → Text.trimSpace op.unit = "" ∨
    ∀ raw, run op.unit = .ok raw → (scopeOf raw).isActive = true ∨ ShowsFailure raw)

/-! ## One operation -/

section Operations
variable {inspector : Inspector} {run : ShowRun} {op : OperationState} {ops : List OperationState}

theorem reconcileOp_of_ne (h : op.status ≠ .running) :
    reconcileOp inspector op = (op, ⟨false, false, op.status == .fail⟩) := by
  rw [reconcileOp, if_pos h]

/-- What becomes of an operation that runs: it goes on, it passes or it fails. -/
theorem reconcileOp_cases (inspector : Inspector) (h : op.status = .running) :
    (Text.trimSpace op.unit ≠ "" ∧
      (∃ scope, inspector op.unit = .ok scope ∧ scope.isActive = true) ∧
      reconcileOp inspector op = (op, ⟨false, true, false⟩)) ∨
    (Passes inspector op ∧
      reconcileOp inspector op =
        ({ op with status := .success, stderr := "" }, ⟨true, false, false⟩)) ∨
    (¬ Passes inspector op ∧ ∃ text,
      reconcileOp inspector op =
        ({ op with status := .fail, stderr := text }, ⟨true, false, true⟩)) := by
  have hrunning : ¬ op.status ≠ .running := not_not.mpr h
  by_cases hunit : Text.trimSpace op.unit = ""
  · refine .inr (.inr ⟨fun hpass => hpass.1 hunit, "running operation missing scope unit", ?_⟩)
    rw [reconcileOp, if_neg hrunning, if_pos hunit]
  rw [reconcileOp, if_neg hrunning, if_neg hunit]
  cases hshow : inspector op.unit with
  | error e =>
      have hfails : ¬ Passes inspector op := by
        rintro ⟨-, scope, hscope, -⟩
        rw [hshow] at hscope
        cases hscope
      refine .inr (.inr ⟨hfails, ?_⟩)
      cases e with
      | notFound => exact ⟨_, rfl⟩
      | other text => exact ⟨_, rfl⟩
  | ok scope =>
      dsimp only
      by_cases hactive : scope.isActive = true
      · exact .inl ⟨hunit, ⟨scope, rfl, hactive⟩, if_pos hactive⟩
      rw [if_neg hactive]
      by_cases hend : scope.execMainStatus = 0 ∨ Casing.equalFold scope.result "success"
      · exact .inr (.inl ⟨⟨hunit, scope, hshow, Bool.eq_false_iff.mpr hactive, hend⟩, if_pos hend⟩)
      · refine .inr (.inr ⟨?_, _, if_neg hend⟩)
        rintro ⟨-, scope', hscope', -, hend'⟩
        rw [hshow] at hscope'
        cases hscope'
        exact hend hend'

theorem accepted_iff_of_running (h : op.status = .running) :
    Accepted inspector op ↔ Passes inspector op := by
  rw [Accepted, h]
  exact ⟨fun hor => hor.elim nofun And.right, fun hpass => .inr ⟨rfl, hpass⟩⟩

theorem not_passes_of_isActive {scope : ScopeState} (hshow : inspector op.unit = .ok scope)
    (hactive : scope.isActive = true) : ¬ Passes inspector op := by
  rintro ⟨-, scope', hscope', hinactive, -⟩
  rw [hshow] at hscope'
  cases hscope'
  rw [hactive] at hinactive
  cases hinactive

/-- An operation is successful afterwards exactly if it is accepted. -/
theorem reconcileOp_success_iff :
    (reconcileOp inspector op).1.status = .success ↔ Accepted inspector op := by
  by_cases h : op.status = .running
  · rw [accepted_iff_of_running h]
    rcases reconcileOp_cases inspector h with
      ⟨-, ⟨scope, hshow, hactive⟩, heq⟩ | ⟨hpass, heq⟩ | ⟨hfails, text, heq⟩
    · rw [heq, h]
      exact iff_of_false nofun (not_passes_of_isActive hshow hactive)
    · rw [heq]
      exact iff_of_true rfl hpass
    · rw [heq]
      exact iff_of_false nofun hfails
  · rw [reconcileOp_of_ne h, Accepted]
    exact ⟨.inl, fun hor => hor.resolve_right fun hrun => h hrun.1⟩

/-- An accepted operation neither goes on nor fails. -/
theorem reconcileOp_flags_of_accepted (h : Accepted inspector op) :
    (reconcileOp inspector op).2.running = false ∧ (reconcileOp inspector op).2.failed = false := by
  rcases h with hsuccess | ⟨hrunning, hpass⟩
  · have hne : op.status ≠ .running := by rw [hsuccess]; exact nofun
    rw [reconcileOp_of_ne hne, hsuccess]
    exact ⟨rfl, rfl⟩
  · rcases reconcileOp_cases inspector hrunning with
      ⟨-, ⟨scope, hshow, hactive⟩, -⟩ | ⟨-, heq⟩ | ⟨hfails, -⟩
    · exact absurd hpass (not_passes_of_isActive hshow hactive)
    · rw [heq]
      exact ⟨rfl, rfl⟩
    · exact absurd hpass hfails

/-- A running operation that is not changed is still active. -/
theorem isActive_of_unchanged (hrunning : op.status = .running)
    (h : (reconcileOp inspector op).2.changed = false) :
    ∃ scope, inspector op.unit = .ok scope ∧ scope.isActive = true := by
  rcases reconcileOp_cases inspector hrunning with ⟨-, hactive, -⟩ | ⟨-, heq⟩ | ⟨-, text, heq⟩
  · exact hactive
  · rw [heq] at h
    cases h
  · rw [heq] at h
    cases h

/-! ## The operations of a job -/

theorem reconcileOne_fst :
    (reconcileOne inspector ops).1 = ops.map fun op => (reconcileOp inspector op).1 := by
  induction ops with
  | nil => rfl
  | cons op ops ih => rw [reconcileOne, ih, List.map_cons]

/-- The flags are those of any operation. -/
theorem reconcileOne_snd :
    (reconcileOne inspector ops).2 =
      ⟨ops.any fun op => (reconcileOp inspector op).2.changed,
        ops.any fun op => (reconcileOp inspector op).2.running,
        ops.any fun op => (reconcileOp inspector op).2.failed⟩ := by
  induction ops with
  | nil => rfl
  | cons op ops ih =>
      rw [reconcileOne, ih]
      rfl

theorem allSuccessful_reconcileOne_iff :
    allSuccessful (reconcileOne inspector ops).1 = true ↔
      ops ≠ [] ∧ ∀ op ∈ ops, Accepted inspector op := by
  simp [allSuccessful, reconcileOne_fst, reconcileOp_success_iff]

variable {st st' : ApplyState}

theorem operations_settle (flags : Flags) : (settle st ops flags).operations = ops := by
  rw [settle]
  split_ifs <;> rfl

theorem settle_success_iff {flags : Flags} : (settle st ops flags).status = .success ↔
    flags.failed = false ∧ flags.running = false ∧ allSuccessful ops = true := by
  rw [settle]
  split_ifs with hfailed hrunning hall <;> simp_all

/-- The job is successful exactly if it has operations and all of them are accepted. -/
theorem settle_reconcileOne_success_iff :
    (settle st (reconcileOne inspector ops).1 (reconcileOne inspector ops).2).status = .success ↔
      ops ≠ [] ∧ ∀ op ∈ ops, Accepted inspector op := by
  rw [settle_success_iff, allSuccessful_reconcileOne_iff, reconcileOne_snd]
  refine ⟨fun h => h.2.2, fun h => ⟨?_, ?_, h⟩⟩
  · exact List.any_eq_false.mpr fun op hop =>
      Bool.not_eq_true _ ▸ (reconcileOp_flags_of_accepted (h.2 op hop)).2
  · exact List.any_eq_false.mpr fun op hop =>
      Bool.not_eq_true _ ▸ (reconcileOp_flags_of_accepted (h.2 op hop)).1

/-! ## The end of a scope -/

theorem systemctlInspector_eq_ok_iff {unit : String} {scope : ScopeState} :
    systemctlInspector run unit = .ok scope ↔ ∃ raw, run unit = .ok raw ∧ scopeOf raw = scope := by
  rw [systemctlInspector]
  cases hrun : run unit with
  | error e =>
      have hnone : ¬ ∃ raw, (Except.error e : Except (String × String) String) = .ok raw ∧
          scopeOf raw = scope := by
        rintro ⟨raw, hraw, -⟩
        cases hraw
      refine iff_of_false ?_ hnone
      dsimp only
      split_ifs
      · exact nofun
      · exact nofun
  | ok raw =>
      constructor
      · intro h
        exact ⟨raw, rfl, Except.ok.inj h⟩
      · rintro ⟨raw', hraw', hscope⟩
        cases hraw'
        exact congrArg Except.ok hscope

/-- Where the output of a unit is there, the operation passes by what it says. -/
theorem passes_systemctl_iff {raw : String} (hrun : run op.unit = .ok raw) :
    Passes (systemctlInspector run) op ↔ Text.trimSpace op.unit ≠ "" ∧
      (scopeOf raw).isActive = false ∧
      ((scopeOf raw).execMainStatus = 0 ∨ Casing.equalFold (scopeOf raw).result "success") := by
  have hshow : systemctlInspector run op.unit = .ok (scopeOf raw) :=
    systemctlInspector_eq_ok_iff.mpr ⟨raw, hrun, rfl⟩
  rw [Passes, hshow]
  refine and_congr_right fun _ => ⟨?_, fun h => ⟨_, rfl, h⟩⟩
  rintro ⟨scope, hscope, h⟩
  rw [Except.ok.inj hscope]
  exact h

theorem badResults_ne_success {result : String} (h : result ∈ badResults) :
    Casing.equalFold result "success" = false := by
  simp only [badResults, List.mem_cons, List.not_mem_nil, or_false] at h
  rcases h with rfl | rfl | rfl | rfl <;> decide

theorem atoi_of_none {raw : String} (h : parseSystemdKV raw "ExecMainStatus" = none) :
    (scopeOf raw).execMainStatus = 0 := by
  rw [execMainStatus_scopeOf, property, h]
  decide

/-- No bad end of a unit passes exactly if a unit that has ended tells its status. -/
theorem endedBadly_not_passes_iff {raw : String} (hrun : run op.unit = .ok raw) :
    (EndedBadly raw → ¬ Passes (systemctlInspector run) op) ↔
      (Text.trimSpace op.unit ≠ "" → (scopeOf raw).isActive = false → Told raw) := by
  rw [passes_systemctl_iff hrun]
  constructor
  · intro h hunit hinactive
    rw [execMainStatus_scopeOf] at h
    refine ⟨?_, fun hresult hzero => h (.inl hresult) ⟨hunit, hinactive, .inl hzero⟩⟩
    rw [Option.isSome_iff_ne_none]
    intro hnone
    exact h (.inr hnone)
      ⟨hunit, hinactive, .inl ((execMainStatus_scopeOf raw).symm.trans (atoi_of_none hnone))⟩
  · rintro htold hbad ⟨hunit, hinactive, hend⟩
    rw [execMainStatus_scopeOf, result_scopeOf] at hend
    obtain ⟨hsome, hstatus⟩ := htold hunit hinactive
    rcases hbad with hresult | hnone
    · rcases hend with hzero | hsuccess
      · exact hstatus hresult hzero
      · rw [badResults_ne_success hresult] at hsuccess
        cases hsuccess
    · rw [hnone] at hsome
      cases hsome

/-! ## The verdict -/

/-- An operation that passes has a unit whose output shows a success in one of two places. -/
theorem exists_raw_of_passes (h : Passes (systemctlInspector run) op) :
    ∃ raw, run op.unit = .ok raw ∧ (scopeOf raw).isActive = false ∧ ¬ ShowsFailure raw := by
  obtain ⟨-, scope, hshow, hinactive, hend⟩ := h
  obtain ⟨raw, hraw, rfl⟩ := systemctlInspector_eq_ok_iff.mp hshow
  rw [execMainStatus_scopeOf, result_scopeOf] at hend
  refine ⟨raw, hraw, hinactive, fun hfailure => hend.elim hfailure.1 fun hsuccess => ?_⟩
  rw [hfailure.2] at hsuccess
  cases hsuccess

theorem unfinished_iff : Unfinished run op ↔ ¬ Accepted (systemctlInspector run) op := by
  constructor
  · rintro ⟨hne, hopen⟩ (hsuccess | ⟨hrunning, hpass⟩)
    · exact hne hsuccess
    · obtain ⟨raw, hraw, hinactive, hshows⟩ := exists_raw_of_passes hpass
      rcases hopen hrunning with hunit | hall
      · exact hpass.1 hunit
      · rcases hall raw hraw with hactive | hfailure
        · rw [hactive] at hinactive
          cases hinactive
        · exact hshows hfailure
  · intro h
    refine ⟨fun hsuccess => h (.inl hsuccess), fun hrunning => ?_⟩
    by_cases hunit : Text.trimSpace op.unit = ""
    · exact .inl hunit
    · refine .inr fun raw hraw => ?_
      by_contra hnot
      push Not at hnot
      refine h (.inr ⟨hrunning, (passes_systemctl_iff hraw).mpr ⟨hunit, ?_, ?_⟩⟩)
      · exact Bool.eq_false_iff.mpr hnot.1
      · rw [execMainStatus_scopeOf, result_scopeOf]
        by_contra hend
        push Not at hend
        exact hnot.2 ⟨hend.1, Bool.eq_false_iff.mpr hend.2⟩

/-- Some operation is unfinished, or every unit that has ended shows a success everywhere or a
failure; and every unit that has ended tells its status. -/
structure Faithful (run : ShowRun) (ops : List OperationState) : Prop where
  job : (∃ op ∈ ops, Unfinished run op) ∨
    ∀ op ∈ ops, op.status = .running → Text.trimSpace op.unit ≠ "" → ∀ raw,
      run op.unit = .ok raw → (scopeOf raw).isActive = false → EndedWell raw ∨ ShowsFailure raw
  told : ∀ op ∈ ops, op.status = .running → Text.trimSpace op.unit ≠ "" →
    ∀ raw, run op.unit = .ok raw → (scopeOf raw).isActive = false → Told raw

theorem sound_settle_iff :
    Sound run st (settle st (reconcileOne (systemctlInspector run) st.operations).1
      (reconcileOne (systemctlInspector run) st.operations).2) ↔ Faithful run st.operations := by
  constructor
  · rintro ⟨hjob, hops⟩
    rw [settle_reconcileOne_success_iff] at hjob
    refine ⟨?_, fun op hop hrunning hunit raw hraw => ?_⟩
    · by_cases hall : ∀ op ∈ st.operations, Accepted (systemctlInspector run) op
      · refine .inr fun op hop hrunning _ raw hraw _ => .inl ?_
        rcases hjob ⟨List.ne_nil_of_mem hop, hall⟩ op hop with hsuccess | ⟨-, raw', hraw', hwell⟩
        · rw [hrunning] at hsuccess
          cases hsuccess
        · rw [Except.ok.inj (hraw.symm.trans hraw')]
          exact hwell
      · push Not at hall
        obtain ⟨op, hop, hnot⟩ := hall
        exact .inl ⟨op, hop, unfinished_iff.mpr hnot⟩
    · refine (endedBadly_not_passes_iff hraw).mp (fun hbad hpass => ?_) hunit
      obtain ⟨i, hi⟩ := List.mem_iff_getElem?.mp hop
      refine hops i op (reconcileOp (systemctlInspector run) op).1 raw hi ?_ hrunning hraw hbad ?_
      · rw [operations_settle, reconcileOne_fst, List.getElem?_map, hi]
        rfl
      · exact reconcileOp_success_iff.mpr (.inr ⟨hrunning, hpass⟩)
  · rintro ⟨hjob, htold⟩
    constructor
    · intro hsuccess
      obtain ⟨-, hall⟩ := settle_reconcileOne_success_iff.mp hsuccess
      rcases hjob with ⟨op, hop, hopen⟩ | hplain
      · exact absurd (hall op hop) (unfinished_iff.mp hopen)
      · intro op hop
        refine (hall op hop).imp_right fun ⟨hrunning, hpass⟩ => ⟨hrunning, ?_⟩
        obtain ⟨raw, hraw, hinactive, hshows⟩ := exists_raw_of_passes hpass
        have hend := hplain op hop hrunning hpass.1 raw hraw hinactive
        exact ⟨raw, hraw, hend.resolve_right hshows⟩
    · intro i op op' raw hi hi' hrunning hraw hbad hsuccess
      have hmem : op ∈ st.operations := List.mem_of_getElem? hi
      rw [operations_settle, reconcileOne_fst, List.getElem?_map, hi, Option.map_some,
        Option.some.injEq] at hi'
      subst hi'
      have hpass := (accepted_iff_of_running hrunning).mp (reconcileOp_success_iff.mp hsuccess)
      exact (endedBadly_not_passes_iff hraw).mpr
        (fun hunit => htold op hmem hrunning hunit raw hraw) hbad hpass

/-- A job that is left as it is has no verdict. -/
theorem sound_self (h : st.status = .running) : Sound run st st := by
  constructor
  · intro hsuccess
    rw [h] at hsuccess
    cases hsuccess
  · intro i op op' raw hi hi' hrunning hraw hbad hsuccess
    rw [hi, Option.some.injEq] at hi'
    rw [← hi', hrunning] at hsuccess
    cases hsuccess

/-- Operations none of which changes meet the condition. -/
theorem faithful_of_unchanged
    (h : (reconcileOne (systemctlInspector run) ops).2.changed = false) : Faithful run ops := by
  rw [reconcileOne_snd] at h
  have hactive : ∀ op ∈ ops, op.status = .running → ∀ raw, run op.unit = .ok raw →
      (scopeOf raw).isActive = true := by
    intro op hop hrunning raw hraw
    have hsame := Bool.eq_false_iff.mpr (List.any_eq_false.mp h op hop)
    obtain ⟨scope, hshow, hact⟩ := isActive_of_unchanged hrunning hsame
    obtain ⟨raw', hraw', rfl⟩ := systemctlInspector_eq_ok_iff.mp hshow
    rw [Except.ok.inj (hraw.symm.trans hraw')]
    exact hact
  constructor
  · refine .inr fun op hop hrunning _ raw hraw hinactive => ?_
    rw [hactive op hop hrunning raw hraw] at hinactive
    cases hinactive
  · intro op hop hrunning _ raw hraw hinactive
    rw [hactive op hop hrunning raw hraw] at hinactive
    cases hinactive

end Operations

/-! ## The pass over the directory -/

section Pass
variable {run : ShowRun} {disk : Disk} {name : String} {st st' : ApplyState}

/-- What becomes of the file of a running job. -/
theorem reconcileEntry_running_iff {inspector : Inspector} (hjob : isJob name = true)
    (hrunning : st.status = .running) :
    reconcileEntry inspector disk name (.file (some st)) = .ok (.file (some st')) ↔
      disk.readFile name = none ∧
        ((reconcileOne inspector st.operations).2.changed = false ∧ st' = st ∨
          (reconcileOne inspector st.operations).2.changed = true ∧ disk.writeFile name = none ∧
            st' = settle st (reconcileOne inspector st.operations).1
              (reconcileOne inspector st.operations).2) := by
  rw [reconcileEntry, if_neg (by simp [hjob])]
  cases hread : disk.readFile name with
  | some err => exact iff_of_false nofun fun h => nomatch h.1
  | none =>
      dsimp only
      cases hchanged : (reconcileOne inspector st.operations).2.changed with
      | false => simp [eq_comm]
      | true => cases hwrite : disk.writeFile name with
        | some err => simp [hrunning]
        | none => simp [hrunning, eq_comm]

/-- An entry of the directory is as before, or what has become of it. -/
theorem getElem?_reconcileEntries {inspector : Inspector} {d : Jobs} {i : ℕ} {entry : Entry}
    {e : String × Entry} (hbefore : d[i]? = some (name, entry))
    (hafter : (reconcileEntries inspector disk d).1[i]? = some e) :
    e = (name, entry) ∨ ∃ entry', reconcileEntry inspector disk name entry = .ok entry' ∧
      e = (name, entry') := by
  induction d generalizing i with
  | nil => cases hbefore
  | cons first rest ih =>
      obtain ⟨name₁, entry₁⟩ := first
      rw [reconcileEntries] at hafter
      cases hentry : reconcileEntry inspector disk name₁ entry₁ with
      | error err =>
          -- the pass ends here
          simp only [hentry] at hafter
          rw [hbefore] at hafter
          exact .inl (Option.some.inj hafter).symm
      | ok entry' =>
          simp only [hentry] at hafter
          cases i with
          | zero =>
              cases hbefore
              exact .inr ⟨entry', hentry, (Option.some.inj hafter).symm⟩
          | succ i => exact ih hbefore hafter

/-- A running job is judged soundly in every directory exactly if the pass cannot read or write its
file, or what the units tell of its operations is faithful. -/
theorem reconciled_sound_iff (run : ShowRun) (disk : Disk) (name : String) (st : ApplyState)
    (hjob : isJob name = true) (hrunning : st.status = .running) :
    (∀ (d : Jobs) (i : ℕ) (st' : ApplyState), d[i]? = some (name, .file (some st)) →
      (reconcileApplyStates (systemctlInspector run) disk d).1[i]? = some (name, .file (some st')) →
      Sound run st st') ↔
    disk.readDir ≠ none ∨ disk.readFile name ≠ none ∨ disk.writeFile name ≠ none ∨
      Faithful run st.operations := by
  constructor
  · intro h
    by_contra hnot
    push Not at hnot
    obtain ⟨hdir, hread, hwrite, hunfaithful⟩ := hnot
    have hchanged : (reconcileOne (systemctlInspector run) st.operations).2.changed = true :=
      Bool.not_eq_false _ ▸ fun hfalse => hunfaithful (faithful_of_unchanged hfalse)
    have hentry := (reconcileEntry_running_iff hjob hrunning).mpr
      ⟨hread, .inr ⟨hchanged, hwrite, rfl⟩⟩
    refine hunfaithful (sound_settle_iff.mp (h [(name, .file (some st))] 0 _ rfl ?_))
    simp only [reconcileApplyStates, hdir, reconcileEntries, hentry, List.getElem?_cons_zero]
  · intro h d i st' hbefore hafter
    rw [reconcileApplyStates] at hafter
    cases hdir : disk.readDir with
    | some err =>
        simp only [hdir, hbefore, Option.some.injEq, Prod.mk.injEq,
          Entry.file.injEq, true_and] at hafter
        exact hafter ▸ sound_self hrunning
    | none =>
        simp only [hdir] at hafter
        rcases getElem?_reconcileEntries hbefore hafter with hsame | ⟨entry', hentry, hsame⟩
        · cases hsame
          exact sound_self hrunning
        · cases hsame
          obtain ⟨hread, ⟨-, rfl⟩ | ⟨-, hwrite, rfl⟩⟩ :=
            (reconcileEntry_running_iff hjob hrunning).mp hentry
          · exact sound_self hrunning
          · rcases h with hne | hne | hne | hfaithful
            · exact absurd hdir hne
            · exact absurd hread hne
            · exact absurd hwrite hne
            · exact sound_settle_iff.mpr hfaithful

end Pass

/-! ## Two runs of `systemctl` -/

/-- The state of a job in the middle of its first operation. -/
def underway : ApplyState :=
  ⟨"job-1", "custom", .running, "",
    [⟨"ssh_level1", .running, false, "pmx-sec-apply-job-1-ssh_level1.scope", ""⟩]⟩

def cleanExit : String := "ActiveState=inactive\nSubState=dead\nResult=success\nExecMainStatus=0\n"

theorem endedWell_cleanExit : EndedWell cleanExit :=
  ⟨by decide +kernel, by decide +kernel, by decide +kernel⟩

theorem faithful_cleanExit : Faithful (fun _ => .ok cleanExit) underway.operations where
  job := .inr (by
    rintro op - - - raw hraw -
    obtain rfl := Except.ok.inj hraw
    exact .inl endedWell_cleanExit)
  told := by
    rintro op - - - raw hraw -
    obtain rfl := Except.ok.inj hraw
    exact ⟨by decide +kernel, by decide +kernel⟩

theorem reconciled_sound_cleanExit :
    isJob "job-1.json" = true ∧ underway.status = .running ∧
    ∀ (d : Jobs) (i : ℕ) (st' : ApplyState), d[i]? = some ("job-1.json", .file (some underway)) →
      (reconcileApplyStates (systemctlInspector fun _ => .ok cleanExit) willing d).1[i]? =
        some ("job-1.json", .file (some st')) →
      Sound (fun _ => .ok cleanExit) underway st' :=
  ⟨by decide, rfl, (reconciled_sound_iff (fun _ => .ok cleanExit) willing "job-1.json" underway
    (by decide) rfl).mpr (.inr (.inr (.inr faithful_cleanExit)))⟩

/-- A scope has no main process, so nothing is told of its status. -/
def timedOut : String := "ActiveState=failed\nSubState=failed\nResult=timeout\n"

/-- The scope has run into its timeout, and the job is successful. -/
theorem timedOut_not_sound :
    (reconcileApplyStates (systemctlInspector fun _ => .ok timedOut) willing
      [("job-1.json", .file (some underway))]).1 =
      [("job-1.json", .file (some ⟨"job-1", "custom", .success, "",
        [⟨"ssh_level1", .success, false, "pmx-sec-apply-job-1-ssh_level1.scope", ""⟩]⟩))] ∧
    ¬ Sound (fun _ => .ok timedOut) underway ⟨"job-1", "custom", .success, "",
        [⟨"ssh_level1", .success, false, "pmx-sec-apply-job-1-ssh_level1.scope", ""⟩]⟩ := by
  refine ⟨by decide +kernel, fun hsound => ?_⟩
  have hnone : parseSystemdKV timedOut "ExecMainStatus" = none := by decide
  exact hsound.operations 0 _ _ timedOut rfl rfl rfl rfl (.inr hnone) rfl

end PmxAgents.Security.Hardening

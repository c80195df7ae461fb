import PmxAgents.Lib.Runs
import PmxAgents.Network.Firewall

/-!
# The rules in force

A rendered file flushes no table, so the kernel keeps what earlier files have put there:
every load only appends. Each file brings at least one rule of the isolation table, and
the rules in force are those of the last file only when it is the first one.
-/

namespace PmxAgents.Network

open Lib Lib.Runs

/-- The rules of a table, given by its family and name. -/
def Kernel.rulesOf (k : Kernel) (table : String × String) : List KernelRule :=
  k.filter fun r => r.family = table.1 ∧ r.table = table.2

/-- The request that a call installs. -/
def Op.params : Op → Option ApplyParams
  | .apply _ params _ => some params
  | .clear _ => none
  | .emergencyLockdown now cidrs _ => some ⟨lockdownRuleset now cidrs, cidrs⟩

/-- The isolation table and the managed table. -/
def ApplyParams.tables (params : ApplyParams) : List (String × String) :=
  [("inet", isolationTable), (params.ruleset.family, params.ruleset.table)]

/-! ## Loading appends -/

/-- The first rule of the isolation table. -/
def establishedRule : KernelRule :=
  ⟨"inet", isolationTable, "input", "ct state established,related accept"⟩

/-- No table is flushed. -/
def FlushesNothing (text : List Line) : Prop := ∀ family table, .flushTable family table ∉ text

theorem foldl_line_eq_append {text : List Line} (h : FlushesNothing text) (k : Kernel)
    (family table chain : String) :
    (text.foldl Reading.line ⟨k, family, table, chain⟩).kernel =
      k ++ (text.foldl Reading.line ⟨[], family, table, chain⟩).kernel := by
  induction text generalizing k family table chain with
  | nil => simp
  | cons line rest ih =>
      have hrest : FlushesNothing rest := fun f t hmem => h f t (List.mem_cons_of_mem line hmem)
      rw [List.foldl_cons, List.foldl_cons]
      cases line with
      | flushTable f t => exact absurd List.mem_cons_self (h f t)
      | rule text =>
          simp only [Reading.line]
          split_ifs
          · exact ih hrest k family table chain
          · rw [ih hrest, ih hrest ([] ++ _), List.nil_append, List.append_assoc]
      | _ => exact ih hrest k _ _ _

theorem load_eq_append {text : List Line} (h : FlushesNothing text) (k : Kernel) :
    k.load text = k ++ Kernel.load [] text :=
  foldl_line_eq_append h k "" "" ""

section Rendered
variable {cfg : Config} {std : Std} {rs : RuleSet} {allow : List String} {rendered : List Line}

theorem flushesNothing_append {text rest : List Line} (h : FlushesNothing text)
    (hrest : FlushesNothing rest) : FlushesNothing (text ++ rest) :=
  fun family table hmem => (List.mem_append.mp hmem).elim (h family table) (hrest family table)

/-- The isolation table up to its first rule. -/
def isolationStart (cfg : Config) : List Line :=
  [.table "inet" isolationTable, .chain "input",
    .baseChain "filter" "input" isolationInputPriority none,
    .chainPolicy (if cfg.defaultDropInput then "drop" else "accept"),
    .rule "ct state established,related accept"]

theorem renderIsolationTable_eq_ok
    (h : renderIsolationTable cfg std allow = .ok rendered) :
    ∃ rest, rendered = isolationStart cfg ++ rest ∧ FlushesNothing rest := by
  rw [renderIsolationTable, Checks.bind_eq_ok] at h
  obtain ⟨addresses, -, hrendered⟩ := h
  refine ⟨_, (Except.ok.inj hrendered).symm.trans (List.append_assoc ..), ?_⟩
  intro family table hmem
  simp at hmem

theorem flushesNothing_renderChain (rules : List (String × String)) (c : Chain) :
    FlushesNothing (renderChain rules c) := by
  intro family table hmem
  rw [renderChain] at hmem
  cases htype : c.chainType <;> cases hhook : c.hook <;> simp [htype, hhook] at hmem

theorem renderRuleset_eq_ok (h : renderRuleset cfg std rs allow = .ok rendered) :
    ∃ rest, rendered = isolationStart cfg ++ rest ∧ FlushesNothing rest := by
  simp only [renderRuleset, Checks.bind_eq_ok] at h
  obtain ⟨rules, -, isolation, hisolation, hrendered⟩ := h
  obtain ⟨rest, rfl, hrest⟩ := renderIsolationTable_eq_ok hisolation
  refine ⟨rest ++ ([Line.blank, .table rs.family rs.table] ++
    (rs.chains.flatMap (renderChain rules) ++ [Line.endTable])), ?_, ?_⟩
  · rw [← Except.ok.inj hrendered]
    simp only [List.append_assoc]
  · refine flushesNothing_append hrest (flushesNothing_append ?_ (flushesNothing_append ?_ ?_))
    · intro family table hmem
      simp at hmem
    · intro family table hmem
      obtain ⟨c, -, hc⟩ := List.mem_flatMap.mp hmem
      exact flushesNothing_renderChain rules c family table hc
    · intro family table hmem
      simp at hmem

theorem flushesNothing_rendered (h : renderRuleset cfg std rs allow = .ok rendered) :
    FlushesNothing rendered := by
  obtain ⟨rest, rfl, hrest⟩ := renderRuleset_eq_ok h
  refine flushesNothing_append (fun family table hmem => ?_) hrest
  simp [isolationStart] at hmem

theorem established_mem_rendered (h : renderRuleset cfg std rs allow = .ok rendered) :
    establishedRule ∈ Kernel.load [] rendered := by
  obtain ⟨rest, rfl, hrest⟩ := renderRuleset_eq_ok h
  rw [Kernel.load, List.foldl_append]
  have hstart : (isolationStart cfg).foldl Reading.line ⟨[], "", "", ""⟩ =
      ⟨[establishedRule], "inet", isolationTable, "input"⟩ := rfl
  rw [hstart, foldl_line_eq_append hrest]
  exact List.mem_append_left _ List.mem_cons_self

end Rendered

/-! ## Histories of installed rulesets -/

section Histories
variable (cfg : Config) (std : Std)

/-- A call of `apply` or `emergency_lockdown` that succeeds. -/
def Installs (s : State) (op : Op) : Prop :=
  op.params.isSome ∧ ∃ result, (op.run cfg std s).1 = .ok result

variable {cfg std} {s t : State}

theorem apply_kernel {now : Int} {params : ApplyParams} {lockdown : Bool} {stop : Option Stop}
    {result : ApplyResult}
    (h : (Network.apply cfg std now params lockdown stop s).1 = .ok result) :
    ∃ rendered, renderRuleset cfg std params.ruleset params.allowSshFrom = .ok rendered ∧
      (Network.apply cfg std now params lockdown stop s).2.kernel =
        s.kernel ++ Kernel.load [] rendered := by
  rw [Network.apply] at h ⊢
  cases hprepare : prepare cfg std now params s with
  | error message =>
      rw [hprepare] at h
      cases h
  | ok plan =>
      rw [hprepare] at h
      obtain ⟨-, -, hrendered, -⟩ := prepare_eq_ok hprepare
      refine ⟨plan.rendered, hrendered, ?_⟩
      rw [← load_eq_append (flushesNothing_rendered hrendered)]
      cases stop with
      | some stop => cases h
      | none =>
          simp only [Plan.execute]
          split_ifs <;> rfl

theorem run_kernel {op : Op} {params : ApplyParams} (hparams : op.params = some params)
    (h : Installs cfg std s op) :
    ∃ rendered, renderRuleset cfg std params.ruleset params.allowSshFrom = .ok rendered ∧
      (op.run cfg std s).2.kernel = s.kernel ++ Kernel.load [] rendered := by
  obtain ⟨-, result, hresult⟩ := h
  cases op with
  | apply now request stop =>
      obtain rfl := Option.some.inj hparams
      exact apply_kernel hresult
  | clear stop => cases hparams
  | emergencyLockdown now cidrs stop =>
      obtain rfl := Option.some.inj hparams
      rw [Op.run, Network.emergencyLockdown] at hresult ⊢
      split_ifs at hresult ⊢ with hcidrs
      rcases happly : Network.apply cfg std now ⟨lockdownRuleset now cidrs, cidrs⟩ true
        (LockdownStop.inApply stop) s with ⟨reply, u⟩
      rw [happly] at hresult
      cases reply with
      | refused message => cases hresult
      | stopped => cases hresult
      | ok installed =>
          obtain ⟨rendered, hrendered, hkernel⟩ := apply_kernel (congrArg Prod.fst happly)
          rw [happly] at hkernel
          refine ⟨rendered, hrendered, ?_⟩
          cases stop with
          | none => exact hkernel
          | some stop => cases stop <;> exact hkernel

/-- A history of installed rulesets has only added to the kernel, and every ruleset a rule of the
isolation table. -/
theorem exec_kernel {ops : List Op} (hops : Admits (step cfg std) (Installs cfg std) s ops)
    (hrun : exec (step cfg std) s ops = some t) :
    ∃ added, t.kernel = s.kernel ++ added ∧ (ops ≠ [] → establishedRule ∈ added) := by
  induction ops generalizing s with
  | nil =>
      obtain rfl : s = t := by simpa using hrun
      exact ⟨[], (List.append_nil _).symm, fun h => absurd rfl h⟩
  | cons op rest ih =>
      obtain ⟨u, hu, hrest⟩ := exec_cons.mp hrun
      obtain ⟨params, hparams⟩ := Option.isSome_iff_exists.mp hops.1.1
      obtain ⟨rendered, hrendered, hkernel⟩ := run_kernel hparams hops.1
      obtain ⟨added, hadded, -⟩ := ih (hops.2 u hu) hrest
      obtain rfl := Option.some.inj hu
      refine ⟨Kernel.load [] rendered ++ added, ?_, fun _ =>
        List.mem_append_left _ (established_mem_rendered hrendered)⟩
      rw [hadded, hkernel, List.append_assoc]

end Histories

theorem established_mem_rulesOf {k : Kernel} (h : establishedRule ∈ k) :
    establishedRule ∈ k.rulesOf ("inet", isolationTable) :=
  List.mem_filter.mpr ⟨h, by decide⟩

theorem rulesOf_append (k l : Kernel) (table : String × String) :
    Kernel.rulesOf (k ++ l) table = k.rulesOf table ++ l.rulesOf table :=
  List.filter_append ..

/-- After a history of installed rulesets the rules in force in the isolation table and in the
managed table are those of the last ruleset, exactly if it is the only one of the history and
found both tables without rules. -/
theorem inForce_iff_first (cfg : Config) (std : Std) (s t : State) (ops : List Op) (op : Op)
    (params : ApplyParams) (hparams : op.params = some params)
    (hops : Admits (step cfg std) (Installs cfg std) s (ops ++ [op]))
    (hrun : exec (step cfg std) s (ops ++ [op]) = some t) :
    (∃ rendered, renderRuleset cfg std params.ruleset params.allowSshFrom = .ok rendered ∧
      ∀ table ∈ params.tables, t.kernel.rulesOf table = (Kernel.load [] rendered).rulesOf table) ↔
      ops = [] ∧ ∀ table ∈ params.tables, s.kernel.rulesOf table = [] := by
  obtain ⟨u, hu, hlast⟩ := exec_concat.mp hrun
  obtain ⟨hbefore, hop⟩ := admits_concat hops hu
  obtain ⟨rendered, hrendered, hkernel⟩ := run_kernel hparams hop
  obtain ⟨added, hadded, hestablished⟩ := exec_kernel hbefore hu
  obtain rfl := Option.some.inj hlast
  have hkept : ∀ table, (op.run cfg std u).2.kernel.rulesOf table =
      (Kernel.load [] rendered).rulesOf table ↔ u.kernel.rulesOf table = [] := by
    intro table
    rw [hkernel, rulesOf_append, List.append_left_eq_self]
  constructor
  · rintro ⟨rendered', hrendered', hrules⟩
    obtain rfl := Except.ok.inj (hrendered.symm.trans hrendered')
    have hempty : ∀ table ∈ params.tables, s.kernel.rulesOf table = [] ∧
        added.rulesOf table = [] := by
      intro table htable
      have hnone := (hkept table).mp (hrules table htable)
      rw [hadded, rulesOf_append] at hnone
      exact List.append_eq_nil_iff.mp hnone
    refine ⟨by_contra fun hne => ?_, fun table htable => (hempty table htable).1⟩
    have hmem := established_mem_rulesOf (hestablished hne)
    rw [(hempty _ List.mem_cons_self).2] at hmem
    exact List.not_mem_nil hmem
  · rintro ⟨rfl, hempty⟩
    obtain rfl : s = u := by simpa using hu
    exact ⟨rendered, hrendered, fun table htable => (hkept table).mpr (hempty table htable)⟩

/-- The first ruleset of a kernel without rules. -/
theorem inForce_first :
    let t := (Network.apply plainConfig plainStd 0 (oneRule "web" [.accept]) false none .init).2
    ∃ rendered, renderRuleset plainConfig plainStd (oneRule "web" [.accept]).ruleset [] =
        .ok rendered ∧ ∀ table ∈ (oneRule "web" [.accept]).tables,
      t.kernel.rulesOf table = (Kernel.load [] rendered).rulesOf table :=
  (inForce_iff_first plainConfig plainStd .init _ [] (.apply 0 (oneRule "web" [.accept]) none) _
    rfl ⟨⟨rfl, _, rfl⟩, fun _ _ => trivial⟩ rfl).mpr ⟨rfl, fun _ _ => rfl⟩

/-- A lockdown leaves the rule in force that accepts everything. -/
theorem accept_after_lockdown :
    let web : Op := .apply 0 (oneRule "web" [.accept]) none
    let lockdown : Op := .emergencyLockdown 1 ["10.0.0.0/8"] none
    let everything : KernelRule := ⟨"inet", defaultTable, "input", "accept"⟩
    ∃ t, exec (step plainConfig plainStd) .init [web, lockdown] = some t ∧
      Admits (step plainConfig plainStd) (Installs plainConfig plainStd) .init [web, lockdown] ∧
      everything ∈ t.kernel ∧
      ∀ rendered, renderRuleset plainConfig plainStd (lockdownRuleset 1 ["10.0.0.0/8"])
        ["10.0.0.0/8"] = .ok rendered → everything ∉ Kernel.load [] rendered := by
  refine ⟨_, rfl, admits_cons ⟨rfl, _, rfl⟩ rfl (admits_cons ⟨rfl, _, rfl⟩ rfl trivial), ?_, ?_⟩
  · decide
  · intro rendered hrendered
    obtain rfl := Except.ok.inj hrendered
    decide

end PmxAgents.Network

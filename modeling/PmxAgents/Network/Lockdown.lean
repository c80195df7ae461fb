import PmxAgents.Lib.Runs
import PmxAgents.Network.Firewall

/-!
# The lockdown flag and the kernel

The flag is written in a step of its own, after the ruleset has been loaded. A call
that stops in between leaves the flag of the ruleset before: a lockdown that `clear` does
not know of, or a refusal of `clear` without a lockdown.
-/

namespace PmxAgents.Network

open Lib Lib.Runs

/-- The flag is enabled, and `clear` is refused, exactly while a lockdown is loaded. -/
structure InStep (s : State) : Prop where
  enabled_iff : s.flag = .enabled true ↔ s.lockdown = true
  refused_iff : isLockdownEnabled s.flag ≠ .ok false ↔ s.lockdown = true

/-- The ruleset was loaded before the stop. -/
def Stop.Loaded : Option Stop → Prop
  | some .create => False
  | some (.stage _) => False
  | some .check => False
  | some .load => False
  | _ => True

/-- The stop lies between the load and the first change of the flag. -/
def LockdownStop.BeforeFlag : Option LockdownStop → Prop
  | some (.apply .unlink) => True
  | some (.apply .link) => True
  | some (.apply .flag) => True
  | _ => False

section Calls
variable (cfg : Config) (std : Std)

/-- A call that changes between lockdown and no lockdown goes to its end once it has loaded its
ruleset; so does a lockdown inside a lockdown, unless it stops before it touches the flag. -/
def Clean (s : State) : Op → Prop
  | .apply now params stop =>
      ∀ plan, prepare cfg std now params s = .ok plan → s.flag = .enabled true →
        Stop.Loaded stop → stop = none
  | .clear _ => True
  | .emergencyLockdown now cidrs stop =>
      ∀ plan, cidrs ≠ [] →
        prepare cfg std now ⟨lockdownRuleset now cidrs, cidrs⟩ s = .ok plan →
        Stop.Loaded (LockdownStop.inApply stop) →
        stop = none ∨ s.flag = .enabled true ∧ LockdownStop.BeforeFlag stop

end Calls

theorem inStep_iff {s : State} : InStep s ↔ isLockdownEnabled s.flag = .ok s.lockdown := by
  constructor
  · rintro ⟨henabled, hrefused⟩
    cases hflag : s.flag with
    | missing => simp_all [isLockdownEnabled]
    | enabled b => cases b <;> simp_all [isLockdownEnabled]
    | torn => simp_all [isLockdownEnabled]
  · intro h
    cases hflag : s.flag with
    | missing =>
        rw [hflag] at h
        have hlock : false = s.lockdown := Except.ok.inj h
        exact ⟨by simp [hflag, ← hlock], by simp [hflag, ← hlock, isLockdownEnabled]⟩
    | enabled b =>
        rw [hflag] at h
        have hlock : b = s.lockdown := Except.ok.inj h
        exact ⟨by simp [hflag, ← hlock], by simp [hflag, ← hlock, isLockdownEnabled]⟩
    | torn =>
        rw [hflag] at h
        cases h

section Steps
variable {cfg : Config} {std : Std} {s : State} {plan : Plan} {lockdown : Bool}

/-- Before the load neither the flag nor the kernel is touched. -/
theorem inStep_execute_of_not_loaded (h : InStep s) {stop : Option Stop}
    (hstop : ¬ Stop.Loaded stop) : InStep (plan.execute lockdown stop s) := by
  cases stop with
  | none => exact absurd trivial hstop
  | some stop =>
      cases stop with
      | create => exact h
      | stage left => exact ⟨h.enabled_iff, h.refused_iff⟩
      | check => exact ⟨h.enabled_iff, h.refused_iff⟩
      | load => exact ⟨h.enabled_iff, h.refused_iff⟩
      | _ => exact absurd trivial hstop

/-- The flag after the load, when `apply` ends a lockdown. -/
def Stop.flagAfter : Option Stop → FlagFile → FlagFile
  | none, _ => .enabled false
  | some .writeFlag, _ => .torn
  | some _, old => old

/-- The flag after the load. -/
def Plan.flagAfter (plan : Plan) (stop : Option Stop) (flag : FlagFile) : FlagFile :=
  if plan.wasLockdown then Stop.flagAfter stop flag else flag

/-- What a plan does to the ruleset in force and to the flag once it has loaded. -/
theorem execute_of_loaded (plan : Plan) (lockdown : Bool) {stop : Option Stop}
    (h : Stop.Loaded stop) (s : State) :
    (plan.execute lockdown stop s).lockdown = lockdown ∧
      (plan.execute lockdown stop s).flag = plan.flagAfter stop s.flag := by
  cases stop with
  | none =>
      by_cases hwas : plan.wasLockdown <;>
        simp [Plan.execute, Plan.flagAfter, Stop.flagAfter, State.load, hwas]
  | some stop =>
      cases stop with
      | create => exact h.elim
      | stage left => exact h.elim
      | check => exact h.elim
      | load => exact h.elim
      | unlink => simp [Plan.execute, Plan.flagAfter, Stop.flagAfter, State.load]
      | link => simp [Plan.execute, Plan.flagAfter, Stop.flagAfter, State.load]
      | flag => simp [Plan.execute, Plan.flagAfter, Stop.flagAfter, State.load]
      | writeFlag =>
          by_cases hwas : plan.wasLockdown <;>
            simp [Plan.execute, Plan.flagAfter, Stop.flagAfter, State.load, hwas]

/-- After the load the two agree exactly if the flag the plan leaves does. -/
theorem inStep_execute_iff {stop : Option Stop} (hstop : Stop.Loaded stop) :
    InStep (plan.execute lockdown stop s) ↔
      isLockdownEnabled (plan.flagAfter stop s.flag) = .ok lockdown := by
  obtain ⟨hlockdown, hflag⟩ := execute_of_loaded plan lockdown hstop s
  rw [inStep_iff, hflag, hlockdown]

theorem apply_inStep_iff (h : InStep s) {now : Int} {params : ApplyParams} {stop : Option Stop} :
    InStep (Network.apply cfg std now params false stop s).2 ↔
      Clean cfg std s (.apply now params stop) := by
  rw [Network.apply, Clean]
  cases hprepare : prepare cfg std now params s with
  | error message => exact iff_of_true h fun plan hplan => nomatch hplan
  | ok plan =>
      obtain ⟨hwas, -⟩ := prepare_eq_ok hprepare
      have hlock : plan.wasLockdown = s.lockdown :=
        Except.ok.inj (hwas.symm.trans (inStep_iff.mp h))
      by_cases hstop : Stop.Loaded stop
      · simp only
        rw [inStep_execute_iff hstop]
        constructor
        · intro hagree plan' hplan' henabled _
          have hlocked : plan.wasLockdown = true := hlock.trans (h.enabled_iff.mp henabled)
          cases stop with
          | none => rfl
          | some stop =>
              rw [Plan.flagAfter, if_pos hlocked, henabled] at hagree
              cases stop <;> cases hagree
        · intro hclean
          by_cases hlocked : plan.wasLockdown = true
          · have henabled := h.enabled_iff.mpr (hlock.symm.trans hlocked)
            rw [hclean plan rfl henabled hstop, Plan.flagAfter, if_pos hlocked]
            rfl
          · rw [Plan.flagAfter, if_neg hlocked, hwas, Bool.eq_false_iff.mpr hlocked]
      · exact ⟨fun _ plan' _ _ hloaded => absurd hloaded hstop,
          fun _ => inStep_execute_of_not_loaded h hstop⟩

/-- The state a lockdown leaves. -/
theorem emergencyLockdown_state {now : Int} {cidrs : List String} (hcidrs : cidrs ≠ [])
    (hprepare : prepare cfg std now ⟨lockdownRuleset now cidrs, cidrs⟩ s = .ok plan)
    (stop : Option LockdownStop) :
    (emergencyLockdown cfg std now cidrs stop s).2 =
      match stop with
      | some (.apply stop) => plan.execute true (some stop) s
      | some .flag => plan.execute true none s
      | some .writeFlag => { plan.execute true none s with flag := .torn }
      | none => { plan.execute true none s with flag := .enabled true } := by
  rw [emergencyLockdown, if_neg hcidrs, Network.apply, hprepare]
  cases stop with
  | none => rfl
  | some stop => cases stop <;> rfl

theorem emergencyLockdown_inStep_iff (h : InStep s) {now : Int} {cidrs : List String}
    {stop : Option LockdownStop} :
    InStep (Network.emergencyLockdown cfg std now cidrs stop s).2 ↔
      Clean cfg std s (.emergencyLockdown now cidrs stop) := by
  by_cases hcidrs : cidrs = []
  · rw [emergencyLockdown, if_pos hcidrs]
    exact iff_of_true h fun _ hne => absurd hcidrs hne
  cases hprepare : prepare cfg std now ⟨lockdownRuleset now cidrs, cidrs⟩ s with
  | error message =>
      rw [emergencyLockdown, if_neg hcidrs, Network.apply, hprepare]
      exact iff_of_true h fun _ _ hplan => nomatch hprepare.symm.trans hplan
  | ok plan =>
      obtain ⟨hwas, -⟩ := prepare_eq_ok hprepare
      have hlock : plan.wasLockdown = s.lockdown :=
        Except.ok.inj (hwas.symm.trans (inStep_iff.mp h))
      have hloaded : Stop.Loaded none := trivial
      obtain ⟨hlockdown, -⟩ := execute_of_loaded plan true hloaded s
      rw [emergencyLockdown_state hcidrs hprepare stop]
      cases stop with
      | none =>
          refine iff_of_true (inStep_iff.mpr ?_) fun _ _ _ _ => Or.inl rfl
          exact congrArg Except.ok hlockdown.symm
      | some stop =>
          cases stop with
          | flag =>
              refine iff_of_false (fun hstep => ?_) fun hclean => ?_
              · rw [inStep_execute_iff hloaded, Plan.flagAfter] at hstep
                split_ifs at hstep with hlocked
                · cases hstep
                · exact hlocked (Except.ok.inj (hwas.symm.trans hstep))
              · rcases hclean plan hcidrs hprepare hloaded with heq | ⟨-, hbefore⟩
                · cases heq
                · exact hbefore
          | writeFlag =>
              refine iff_of_false (fun hstep => ?_) fun hclean => ?_
              · cases inStep_iff.mp hstep
              · rcases hclean plan hcidrs hprepare hloaded with heq | ⟨-, hbefore⟩
                · cases heq
                · exact hbefore
          | apply stop =>
              by_cases hstop : Stop.Loaded (some stop)
              · simp only
                rw [inStep_execute_iff hstop, Plan.flagAfter]
                constructor
                · intro hagree plan' _ _ _
                  right
                  split_ifs at hagree with hlocked
                  · refine ⟨h.enabled_iff.mpr (hlock.symm.trans hlocked), ?_⟩
                    cases stop <;> trivial
                  · exact absurd (Except.ok.inj (hwas.symm.trans hagree)) hlocked
                · intro hclean
                  rcases hclean plan hcidrs hprepare hstop with heq | ⟨henabled, hbefore⟩
                  · cases heq
                  · have hlocked := hlock.trans (h.enabled_iff.mp henabled)
                    rw [if_pos hlocked, henabled]
                    cases stop <;> first | rfl | exact hbefore.elim
              · exact iff_of_true (inStep_execute_of_not_loaded h hstop) fun _ _ _ hloaded =>
                  absurd hloaded hstop

theorem isLockdownEnabled_of_prepareClear {text : List Line}
    (h : prepareClear cfg std s = .ok text) : isLockdownEnabled s.flag = .ok false := by
  rw [prepareClear, Checks.bind_eq_ok] at h
  obtain ⟨refuses, hflag, hrest⟩ := h
  cases refuses with
  | false => exact hflag
  | true => cases hrest

/-- `clear` runs only outside a lockdown and leaves none. -/
theorem clear_inStep (h : InStep s) (stop : Option ClearStop) :
    InStep (Network.clear cfg std stop s).2 := by
  rw [Network.clear]
  cases hprepare : prepareClear cfg std s with
  | error message => exact h
  | ok text =>
      have hflag := isLockdownEnabled_of_prepareClear hprepare
      cases stop with
      | none => exact inStep_iff.mpr hflag
      | some stop =>
          cases stop with
          | create => exact h
          | write left => exact ⟨h.enabled_iff, h.refused_iff⟩
          | load => exact ⟨h.enabled_iff, h.refused_iff⟩

theorem run_inStep_iff (h : InStep s) (op : Op) :
    InStep (op.run cfg std s).2 ↔ Clean cfg std s op := by
  cases op with
  | apply now params stop => exact apply_inStep_iff h
  | clear stop => exact iff_of_true (clear_inStep h stop) trivial
  | emergencyLockdown now cidrs stop => exact emergencyLockdown_inStep_iff h

end Steps

/-- Flag and kernel agree after every call of a history exactly if every call is clean. -/
theorem inStep_iff_clean (cfg : Config) (std : Std) (ops : List Op) :
    Admits (step cfg std) (fun s op => InStep (op.run cfg std s).2) .init ops ↔
      Admits (step cfg std) (Clean cfg std) .init ops := by
  refine admits_iff_of_invariant (fun s op t h hclean ht => ?_)
    (fun s op h => run_inStep_iff h op) (inStep_iff.mpr rfl)
  obtain rfl := Option.some.inj ht
  exact (run_inStep_iff h op).mpr hclean

/-- A lockdown whose process ends before it writes the flag leaves a lockdown that `clear` does
not know of, and a ruleset applied after a lockdown, of which the same is true, leaves `clear`
refused without one. -/
theorem stopped_before_flag :
    (∃ s, exec (step plainConfig plainStd) .init
        [.emergencyLockdown 0 ["10.0.0.0/8"] (some .flag)] = some s ∧
      s.lockdown = true ∧ s.flag = .missing ∧
      ∃ result, (Network.clear plainConfig plainStd none s).1 = .ok result) ∧
    ∃ s, exec (step plainConfig plainStd) .init
        [.emergencyLockdown 0 ["10.0.0.0/8"] none,
         .apply 1 (oneRule "web" [.accept]) (some .unlink)] = some s ∧
      s.lockdown = false ∧ s.flag = .enabled true ∧
      (Network.clear plainConfig plainStd none s).1 = .refused lockdownActive :=
  ⟨⟨_, rfl, rfl, rfl, _, rfl⟩, ⟨_, rfl, rfl, rfl, rfl⟩⟩

end PmxAgents.Network

import PmxAgents.Core.Spawn
import PmxAgents.Lib.Runs

/-!
# Draining

`core.shutdown` sets a flag and starts a goroutine, which stops the sibling units and then ends
the process. Every command is first checked against the flag. A reconnect can leave the handler of
the old connection running, so calls overlap: each of them reads the flag when it comes in, the
one for `core.shutdown` reads it again before it sets it, and other calls run in between.

Two calls that both find the flag unset start a goroutine each.

## Implementation notes

The steps of a goroutine follow those of the call that started it. The units of a goroutine share
one deadline; when it has passed, no further `systemctl stop` is started. `started` are the units
for which one was. How it ends is only logged, and the wait before the first is not a step.
-/

namespace PmxAgents.Core.Drain

open Lib.Runs Spawn

inductive Reply where
  | rejected
  | alreadyDraining
  | result
  deriving DecidableEq, Repr

/-- Where a call stands: before the check of the flag, let through, about to set the flag, about to
start the goroutine, or answered. With `stopping` and `finished` it is answered too, and its
goroutine has these units left or has cancelled the root context, the deadline passed or not. -/
inductive Phase where
  | arrived
  | dispatched
  | unset
  | stored
  | answered (reply : Reply)
  | stopping (expired : Bool) (units : List String)
  | finished (expired : Bool)
  deriving DecidableEq, Repr

structure State where
  draining : Bool
  calls : ℕ → Option (String × Phase)
  started : List String
  cancelled : Bool

def State.init : State := ⟨false, fun _ => none, [], false⟩

def allowedUnits : List String :=
  ["pmx-telemetry.service", "pmx-hypervisor.service", "pmx-storage.service", "pmx-network.service",
    "pmx-security.service", "pmx-backup.service"]

/-- The next step of a call, from what it reads of the flag. -/
def Phase.next (draining : Bool) (command : String) : Phase → Option Phase
  | .arrived => some (if draining then .answered .rejected else .dispatched)
  | .dispatched =>
      some (if command ≠ "core.shutdown" then .answered .result
        else if draining then .answered .alreadyDraining else .unset)
  | .unset => some .stored
  | .stored => some (.stopping false allowedUnits)
  | .stopping expired (_ :: rest) => some (.stopping expired rest)
  | .stopping expired [] => some (.finished expired)
  | .answered _ => none
  | .finished _ => none

/-- The units for which the step from a phase starts `systemctl stop`. -/
def Phase.starts (m : Manager) : Phase → List String
  | .stopping false (unit :: _) => if m.allow unit then [unit] else []
  | _ => []

def Phase.isLast : Phase → Bool
  | .stopping _ [] => true
  | _ => false

def State.proceed (m : Manager) (s : State) (i : ℕ) (command : String) (p q : Phase) : State where
  draining := s.draining || p = .unset
  calls := Function.update s.calls i (some (command, q))
  started := s.started ++ p.starts m
  cancelled := s.cancelled || p.isLast

inductive Action where
  | receive (i : ℕ) (command : String)
  | advance (i : ℕ)
  | expire (i : ℕ)

def step (m : Manager) (s : State) : Action → Option State
  | .receive i command =>
      if s.calls i = none then
        some { s with calls := Function.update s.calls i (some (command, .arrived)) }
      else none
  | .advance i =>
      match s.calls i with
      | none => none
      | some (command, p) => (p.next s.draining command).map (s.proceed m i command p)
  | .expire i =>
      match s.calls i with
      | some (command, .stopping false units) =>
          some { s with calls := Function.update s.calls i (some (command, .stopping true units)) }
      | _ => none

/-! ## What a step does -/

section Steps
variable {m : Manager} {s t : State}

theorem update_eq_some {α : Type} {f : ℕ → Option α} {i j : ℕ} {v w : α} :
    Function.update f i (some v) j = some w ↔ j = i ∧ v = w ∨ j ≠ i ∧ f j = some w := by
  by_cases h : j = i
  · subst h
    simp
  · simp [h]

theorem exists_update_iff {α : Type} {f : ℕ → Option α} {i : ℕ} {v : α} {P : α → Prop}
    (h : ∀ w, f i = some w → P w → P v) :
    (∃ j x, Function.update f i (some v) j = some x ∧ P x) ↔ P v ∨ ∃ j x, f j = some x ∧ P x := by
  constructor
  · rintro ⟨j, x, hj, hx⟩
    rcases update_eq_some.mp hj with ⟨-, rfl⟩ | ⟨-, hj⟩
    · exact Or.inl hx
    · exact Or.inr ⟨j, x, hj, hx⟩
  · rintro (hv | ⟨j, x, hj, hx⟩)
    · exact ⟨i, v, Function.update_self .., hv⟩
    · by_cases hij : j = i
      · subst hij
        exact ⟨j, v, Function.update_self .., h x hj hx⟩
      · exact ⟨j, x, (Function.update_of_ne hij _ _).trans hj, hx⟩

theorem receive_cases {i : ℕ} {command : String} (h : step m s (.receive i command) = some t) :
    s.calls i = none ∧
      t = { s with calls := Function.update s.calls i (some (command, .arrived)) } := by
  by_cases hfree : s.calls i = none
  · rw [step, if_pos hfree] at h
    exact ⟨hfree, (Option.some.inj h).symm⟩
  · rw [step, if_neg hfree] at h
    cases h

theorem advance_cases {i : ℕ} (h : step m s (.advance i) = some t) :
    ∃ command p q, s.calls i = some (command, p) ∧ p.next s.draining command = some q ∧
      t = s.proceed m i command p q := by
  cases hcall : s.calls i with
  | none => simp [step, hcall] at h
  | some call =>
      obtain ⟨command, p⟩ := call
      simp only [step, hcall, Option.map_eq_some_iff] at h
      obtain ⟨q, hq, rfl⟩ := h
      exact ⟨command, p, q, rfl, hq, rfl⟩

theorem expire_cases {i : ℕ} (h : step m s (.expire i) = some t) :
    ∃ command units, s.calls i = some (command, .stopping false units) ∧
      t = { s with calls := Function.update s.calls i (some (command, .stopping true units)) } := by
  rw [step] at h
  split at h
  · exact ⟨_, _, ‹_›, (Option.some.inj h).symm⟩
  · cases h

/-! ## The order of a drain -/

/-- The call has set the flag. -/
def Phase.Sets : Phase → Prop
  | .stored | .stopping _ _ | .finished _ => True
  | _ => False

def Phase.Ended (p : Phase) : Prop := ∃ expired, p = .finished expired

/-- The flag was set by a call that starts a goroutine, and the process is ended by a goroutine
that, before its deadline, has started `systemctl stop` for the units it has left behind. -/
structure Orderly (m : Manager) (s : State) : Prop where
  flagged : s.draining = true ↔ ∃ i call, s.calls i = some call ∧ call.2.Sets
  behind : ∀ i command expired units, s.calls i = some (command, .stopping expired units) →
    ∃ stopped, stopped ++ units = allowedUnits ∧
      (expired = false → ∀ v ∈ stopped, m.allow v → v ∈ s.started)
  ended : s.cancelled = true ↔ ∃ i call, s.calls i = some call ∧ call.2.Ended
  complete : ∀ i command, s.calls i = some (command, .finished false) →
    ∀ v ∈ allowedUnits, m.allow v → v ∈ s.started
  allowed : ∀ v ∈ s.started, v ∈ allowedUnits ∧ m.allow v

theorem orderly_init : Orderly m .init := by
  constructor <;> simp [State.init]

/-- A call that is put in a phase which neither sets the flag nor ends the process. -/
theorem orderly_update {i : ℕ} {command : String} {p : Phase} (h : Orderly m s)
    (hsets : ∀ call, s.calls i = some call → call.2.Sets → p.Sets)
    (hflag : p.Sets → s.draining = true) (hended : ¬ p.Ended)
    (hcalls : ∀ call, s.calls i = some call → ¬ call.2.Ended)
    (hbehind : ∀ expired units, p = .stopping expired units →
      expired = true ∧ ∃ stopped, stopped ++ units = allowedUnits) :
    Orderly m { s with calls := Function.update s.calls i (some (command, p)) } := by
  refine ⟨?_, fun j other expired units hj => ?_, h.ended.trans ?_, fun j other hj => ?_, h.allowed⟩
  · rw [exists_update_iff hsets, ← h.flagged]
    exact ⟨Or.inr, fun hor => hor.elim hflag id⟩
  · rcases update_eq_some.mp hj with ⟨-, heq⟩ | ⟨-, hj⟩
    · obtain ⟨rfl, stopped, hsplit⟩ := hbehind expired units (Prod.mk.inj heq).2
      exact ⟨stopped, hsplit, nofun⟩
    · exact h.behind j other expired units hj
  · rw [exists_update_iff fun call hcall hp => absurd hp (hcalls call hcall)]
    simp [hended]
  · rcases update_eq_some.mp hj with ⟨-, heq⟩ | ⟨-, hj⟩
    · exact absurd ⟨false, (Prod.mk.inj heq).2⟩ hended
    · exact h.complete j other hj

theorem Phase.next_cases {p q : Phase} {draining : Bool} {command : String}
    (h : p.next draining command = some q) :
    (q.Sets ↔ p = .unset ∨ p.Sets) ∧ (q.Ended ↔ p.isLast = true) ∧ ¬ p.Ended ∧
      (∀ expired units, q = .stopping expired units →
        units = allowedUnits ∨ ∃ unit, p = .stopping expired (unit :: units)) ∧
      ∀ expired, q = .finished expired → p = .stopping expired [] := by
  cases p with
  | arrived =>
      obtain rfl := Option.some.inj h
      split_ifs <;> simp [Phase.Sets, Phase.Ended, Phase.isLast]
  | dispatched =>
      obtain rfl := Option.some.inj h
      split_ifs <;> simp [Phase.Sets, Phase.Ended, Phase.isLast]
  | stopping expired units =>
      cases units <;> obtain rfl := Option.some.inj h <;>
        simp [Phase.Sets, Phase.Ended, Phase.isLast]
  | unset | stored =>
      obtain rfl := Option.some.inj h
      simp [Phase.Sets, Phase.Ended, Phase.isLast]
  | answered _ | finished _ => cases h

theorem Phase.mem_starts {p : Phase} {v : String} :
    v ∈ p.starts m ↔ m.allow v = true ∧ ∃ rest, p = .stopping false (v :: rest) := by
  rcases p with _ | _ | _ | _ | _ | ⟨_ | _, _ | ⟨unit, rest⟩⟩ | _
  case stopping.false.cons =>
    by_cases h : m.allow unit = true <;> simp [Phase.starts, h] <;> grind
  all_goals simp [Phase.starts]

theorem orderly_proceed {i : ℕ} {command : String} {p q : Phase} (h : Orderly m s)
    (hcall : s.calls i = some (command, p)) (hnext : p.next s.draining command = some q) :
    Orderly m (s.proceed m i command p q) := by
  obtain ⟨hsets, hends, hrunning, hunits, hlast⟩ := Phase.next_cases hnext
  have hgrows : ∀ v ∈ s.started, v ∈ (s.proceed m i command p q).started :=
    fun v hv => List.mem_append_left _ hv
  refine ⟨?_, fun j other expired units hj => ?_, ?_, fun j other hj v hv hallow => ?_,
    fun v hv => ?_⟩
  · have hflagged : p.Sets → s.draining = true := fun hp => h.flagged.mpr ⟨i, _, hcall, hp⟩
    rw [State.proceed, exists_update_iff, ← h.flagged, hsets]
    · simp only [Bool.or_eq_true, decide_eq_true_eq]
      tauto
    · rw [hcall]
      rintro _ ⟨⟩ hp
      exact hsets.mpr (Or.inr hp)
  · rcases update_eq_some.mp hj with ⟨rfl, heq⟩ | ⟨-, hj⟩
    · rcases hunits expired units (Prod.mk.inj heq).2 with rfl | ⟨unit, rfl⟩
      · exact ⟨[], rfl, by simp⟩
      · obtain ⟨stopped, hsplit, hstopped⟩ := h.behind j command _ _ hcall
        refine ⟨stopped ++ [unit], by simpa using hsplit, fun hearly v hv hallow => ?_⟩
        rcases List.mem_append.mp hv with hv | hv
        · exact hgrows v (hstopped hearly v hv hallow)
        · obtain rfl := List.mem_singleton.mp hv
          subst hearly
          exact List.mem_append_right _ (Phase.mem_starts.mpr ⟨hallow, _, rfl⟩)
    · obtain ⟨stopped, hsplit, hstopped⟩ := h.behind j other expired units hj
      exact ⟨stopped, hsplit, fun hearly v hv hallow => hgrows v (hstopped hearly v hv hallow)⟩
  · rw [State.proceed, exists_update_iff (by simp [hcall, hrunning]), ← h.ended, hends]
    simp [or_comm]
  · rcases update_eq_some.mp hj with ⟨rfl, heq⟩ | ⟨-, hj⟩
    · obtain rfl := hlast false (Prod.mk.inj heq).2
      obtain ⟨stopped, hsplit, hstopped⟩ := h.behind j command _ _ hcall
      rw [List.append_nil] at hsplit
      exact hgrows v (hstopped rfl v (hsplit ▸ hv) hallow)
    · exact hgrows v (h.complete j other hj v hv hallow)
  · rcases List.mem_append.mp hv with hv | hv
    · exact h.allowed v hv
    · obtain ⟨hallow, rest, rfl⟩ := Phase.mem_starts.mp hv
      obtain ⟨stopped, hsplit, -⟩ := h.behind i command _ _ hcall
      exact ⟨by simp [← hsplit], hallow⟩

theorem orderly_step (h : Orderly m s) (a : Action) (hstep : step m s a = some t) :
    Orderly m t := by
  cases a with
  | receive i command =>
      obtain ⟨hfree, rfl⟩ := receive_cases hstep
      refine orderly_update h ?_ nofun nofun ?_ nofun <;> simp [hfree]
  | advance i =>
      obtain ⟨command, p, q, hcall, hnext, rfl⟩ := advance_cases hstep
      exact orderly_proceed h hcall hnext
  | expire i =>
      obtain ⟨command, units, hcall, rfl⟩ := expire_cases hstep
      refine orderly_update h (fun _ _ _ => trivial)
        (fun _ => h.flagged.mpr ⟨i, _, hcall, trivial⟩) nofun ?_ ?_
      · rw [hcall]
        rintro _ ⟨⟩ ⟨_, ⟨⟩⟩
      · rintro expired left ⟨⟩
        obtain ⟨stopped, hsplit, -⟩ := h.behind i command _ _ hcall
        exact ⟨rfl, stopped, hsplit⟩

/-- A flag that is set has been followed by the end of the process once nothing is left to do. -/
theorem cancelled_of_quiet (h : Orderly m s) (hflag : s.draining = true)
    (hquiet : ∀ i, step m s (.advance i) = none) : s.cancelled = true := by
  obtain ⟨i, ⟨command, p⟩, hcall, hp⟩ := h.flagged.mp hflag
  have hstuck := hquiet i
  simp only [step, hcall, Option.map_eq_none_iff] at hstuck
  cases p with
  | finished expired => exact h.ended.mpr ⟨i, _, hcall, expired, rfl⟩
  | stopping expired units => cases units <;> cases hstuck
  | stored => cases hstuck
  | arrived | dispatched | unset | answered _ => exact hp.elim

end Steps

/-! ## Runs -/

/-- After every interleaving: the process is ended only with the flag set and by a goroutine that
has started `systemctl stop` for each allowed unit unless its deadline has passed, no other unit is
stopped, and if the flag is set and no call and no goroutine can go on, the process is ended. -/
theorem drain_orderly (m : Manager) (actions : List Action) (s : State)
    (hrun : exec (step m) .init actions = some s) :
    (s.cancelled = true → s.draining = true ∧ ∃ i command expired,
        s.calls i = some (command, .finished expired) ∧
          (expired = false → ∀ v ∈ allowedUnits, m.allow v → v ∈ s.started)) ∧
      (∀ v ∈ s.started, v ∈ allowedUnits ∧ m.allow v) ∧
      (s.draining = true → (∀ i, step m s (.advance i) = none) → s.cancelled = true) := by
  have h : Orderly m s :=
    exec_invariant (fun _ a _ hs _ => orderly_step hs a) orderly_init
      (admits_of_forall fun _ _ => trivial) hrun
  refine ⟨fun hcancelled => ?_, h.allowed, cancelled_of_quiet h⟩
  obtain ⟨i, ⟨command, _⟩, hcall, expired, rfl⟩ := h.ended.mp hcancelled
  refine ⟨h.flagged.mpr ⟨i, _, hcall, trivial⟩, i, command, expired, hcall, ?_⟩
  rintro rfl
  exact h.complete i command hcall

def shutdown (advances : ℕ) : List Action :=
  .receive 0 "core.shutdown" :: List.replicate advances (.advance 0)

theorem drain_orderly_shutdown :
    ∃ s, exec (step (newManager allowedUnits [])) .init (shutdown 11) = some s ∧
      s.cancelled = true ∧ s.draining = true ∧ ∃ i command expired,
        s.calls i = some (command, .finished expired) ∧
          (expired = false → ∀ v ∈ allowedUnits, v ∈ s.started) := by
  obtain ⟨s, hrun, hcancelled⟩ : ∃ s, exec (step (newManager allowedUnits [])) .init
      (shutdown 11) = some s ∧ s.cancelled = true := ⟨_, rfl, rfl⟩
  obtain ⟨hflag, i, command, expired, hcall, hunits⟩ := (drain_orderly _ _ s hrun).1 hcancelled
  refine ⟨s, hrun, hcancelled, hflag, i, command, expired, hcall, fun hearly v hv => ?_⟩
  exact hunits hearly v hv (by simp [newManager, Manager.allow, hv])

end PmxAgents.Core.Drain

import Mathlib.Data.List.Basic

/-!
# Runs of a partial step function

A system is a state type with a partial step function: an action that is not
enabled in a state has no successor. A run is a list of actions executed in
order. Invariants are proved for one step and carried to whole runs here, once
for every system of the development.

## Implementation notes

`Admits` restricts the actions of a run by a condition that may read the state
before the step. It is kept apart from `step` so that a system can be studied
both without the restriction and under it.
-/

namespace PmxAgents.Lib.Runs

variable {σ α : Type*} {step : σ → α → Option σ}

/-- Execute the actions in order. A disabled action leaves no final state. -/
def exec (step : σ → α → Option σ) : σ → List α → Option σ
  | s, [] => some s
  | s, a :: rest => (step s a).bind fun t => exec step t rest

/-- Every action of the run is taken in a state that satisfies the condition. -/
def Admits (step : σ → α → Option σ) (ok : σ → α → Prop) : σ → List α → Prop
  | _, [] => True
  | s, a :: rest => ok s a ∧ ∀ t, step s a = some t → Admits step ok t rest

theorem admits_cons {ok : σ → α → Prop} {s t : σ} {a : α} {rest : List α} (hok : ok s a)
    (hstep : step s a = some t) (hrest : Admits step ok t rest) : Admits step ok s (a :: rest) := by
  refine ⟨hok, fun u hu => ?_⟩
  obtain rfl := Option.some.inj (hstep.symm.trans hu)
  exact hrest

/-- Along a given run the condition can be evaluated. -/
instance decidableAdmits (ok : σ → α → Prop) [∀ s a, Decidable (ok s a)] :
    ∀ s as, Decidable (Admits step ok s as)
  | _, [] => .isTrue trivial
  | s, a :: rest =>
      have : Decidable (∀ t, step s a = some t → Admits step ok t rest) :=
        match step s a with
        | none => .isTrue nofun
        | some t =>
            @decidable_of_iff _ (Admits step ok t rest) (by simp) (decidableAdmits ok t rest)
      inferInstanceAs (Decidable (_ ∧ _))

@[simp] theorem exec_nil (s : σ) : exec step s [] = some s := rfl

theorem exec_cons {s u : σ} {a : α} {rest : List α} :
    exec step s (a :: rest) = some u ↔
      ∃ t, step s a = some t ∧ exec step t rest = some u := by
  simp [exec, Option.bind_eq_some_iff]

/-- A run in two parts. -/
theorem exec_append (s : σ) (as bs : List α) :
    exec step s (as ++ bs) = (exec step s as).bind fun t => exec step t bs := by
  induction as generalizing s with
  | nil => rfl
  | cons a rest ih =>
      rw [List.cons_append, exec, exec, Option.bind_assoc]
      exact congrArg (Option.bind (step s a)) (funext ih)

/-- A run with a last action. -/
theorem exec_concat {s u : σ} {as : List α} {a : α} :
    exec step s (as ++ [a]) = some u ↔ ∃ t, exec step s as = some t ∧ step t a = some u := by
  induction as generalizing s with
  | nil => simp [exec_cons]
  | cons b rest ih =>
      rw [List.cons_append, exec_cons]
      constructor
      · rintro ⟨r, hr, hu⟩
        obtain ⟨t, ht, hta⟩ := ih.mp hu
        exact ⟨t, exec_cons.mpr ⟨r, hr, ht⟩, hta⟩
      · rintro ⟨t, ht, hta⟩
        obtain ⟨r, hr, hrest⟩ := exec_cons.mp ht
        exact ⟨r, hr, ih.mpr ⟨t, hrest, hta⟩⟩

/-- The last action of an admitted run, and the run before it, are admitted. -/
theorem admits_concat {ok : σ → α → Prop} {s t : σ} {as : List α} {a : α}
    (h : Admits step ok s (as ++ [a])) (ht : exec step s as = some t) :
    Admits step ok s as ∧ ok t a := by
  induction as generalizing s with
  | nil =>
      obtain rfl : s = t := by simpa using ht
      exact ⟨trivial, h.1⟩
  | cons b rest ih =>
      obtain ⟨r, hr, hrest⟩ := exec_cons.mp ht
      obtain ⟨hadmits, hlast⟩ := ih (h.2 r hr) hrest
      exact ⟨admits_cons h.1 hr hadmits, hlast⟩

/-- A property kept by every admitted step holds at the end of every admitted run. -/
theorem exec_invariant {ok : σ → α → Prop} {Inv : σ → Prop}
    (hstep : ∀ s a t, Inv s → ok s a → step s a = some t → Inv t)
    {s u : σ} {as : List α} (hs : Inv s) (hok : Admits step ok s as)
    (hrun : exec step s as = some u) : Inv u := by
  induction as generalizing s with
  | nil =>
      obtain rfl : s = u := by simpa using hrun
      exact hs
  | cons a rest ih =>
      obtain ⟨t, ht, hu⟩ := exec_cons.mp hrun
      exact ih (hstep s a t hs hok.1 ht) (hok.2 t ht) hu

/-- A condition on actions alone is admitted as soon as every action meets it. -/
theorem admits_of_forall {ok : α → Prop} {s : σ} {as : List α}
    (h : ∀ a ∈ as, ok a) : Admits step (fun _ a => ok a) s as := by
  induction as generalizing s with
  | nil => trivial
  | cons a rest ih =>
      exact ⟨h a (by simp), fun t _ => ih fun b hb => h b (by simp [hb])⟩

/-- Conditions that agree are admitted by the same runs. -/
theorem admits_congr {ok₁ ok₂ : σ → α → Prop} (h : ∀ s a, ok₁ s a ↔ ok₂ s a) {s : σ}
    {as : List α} : Admits step ok₁ s as ↔ Admits step ok₂ s as := by
  induction as generalizing s with
  | nil => exact Iff.rfl
  | cons a rest ih => exact and_congr (h s a) (forall₂_congr fun t _ => ih)

/-- A condition that an invariant of the admitted runs gives is admitted along them. -/
theorem admits_of_invariant {ok₁ ok₂ : σ → α → Prop} {Inv : σ → Prop}
    (hstep : ∀ s a t, Inv s → ok₁ s a → step s a = some t → Inv t)
    (hok : ∀ s a, Inv s → ok₁ s a → ok₂ s a) {s : σ} {as : List α} (hs : Inv s)
    (h : Admits step ok₁ s as) : Admits step ok₂ s as := by
  induction as generalizing s with
  | nil => trivial
  | cons a rest ih =>
      exact ⟨hok s a hs h.1, fun t ht => ih (hstep s a t hs h.1 ht) (h.2 t ht)⟩

/-- Two conditions that agree in the states of an invariant, which the second one keeps, are
admitted by the same runs. -/
theorem admits_iff_of_invariant {ok₁ ok₂ : σ → α → Prop} {Inv : σ → Prop}
    (hstep : ∀ s a t, Inv s → ok₂ s a → step s a = some t → Inv t)
    (hok : ∀ s a, Inv s → (ok₁ s a ↔ ok₂ s a)) {s : σ} {as : List α} (hs : Inv s) :
    Admits step ok₁ s as ↔ Admits step ok₂ s as := by
  induction as generalizing s with
  | nil => exact Iff.rfl
  | cons a rest ih =>
      constructor
      · rintro ⟨h, hrest⟩
        have h₂ := (hok s a hs).mp h
        exact ⟨h₂, fun t ht => (ih (hstep s a t hs h₂ ht)).mp (hrest t ht)⟩
      · rintro ⟨h, hrest⟩
        exact ⟨(hok s a hs).mpr h, fun t ht => (ih (hstep s a t hs h ht)).mpr (hrest t ht)⟩

/-- Two admitted conditions are admitted together. -/
theorem Admits.and {ok₁ ok₂ : σ → α → Prop} {s : σ} {as : List α}
    (h₁ : Admits step ok₁ s as) (h₂ : Admits step ok₂ s as) :
    Admits step (fun s a => ok₁ s a ∧ ok₂ s a) s as := by
  induction as generalizing s with
  | nil => trivial
  | cons a rest ih =>
      exact ⟨⟨h₁.1, h₂.1⟩, fun t ht => ih (h₁.2 t ht) (h₂.2 t ht)⟩

end PmxAgents.Lib.Runs

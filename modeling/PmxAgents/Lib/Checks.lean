import Mathlib.Data.List.Forall2

/-!
# Checks that end in a value or an error

What it takes for a chain of checks to end in a value: every check before it
passed. The lemmas take one link off the front of the chain.
-/

namespace PmxAgents.Lib.Checks

variable {ε : Type*} {α β : Type}

/-- A bound step ends in a value exactly if both parts do. -/
theorem bind_eq_ok {m : Except ε α} {f : α → Except ε β} {v : β} :
    (m >>= f) = .ok v ↔ ∃ a, m = .ok a ∧ f a = .ok v := by
  cases m <;> simp [bind, Except.bind]

theorem mapError_eq_ok {ε' : Type*} {f : ε → ε'} {m : Except ε α} {v : α} :
    m.mapError f = .ok v ↔ m = .ok v := by
  cases m <;> simp [Except.mapError]

theorem map_eq_ok {f : α → β} {m : Except ε α} {v : β} :
    m.map f = .ok v ↔ ∃ a, m = .ok a ∧ f a = v := by
  cases m <;> simp [Except.map]

/-- A refusal in front of a chain. -/
theorem ite_throw_eq_ok {c : Prop} [Decidable c] {e : ε} {k : Except ε β} {v : β} :
    (if c then throw e else k) = .ok v ↔ ¬ c ∧ k = .ok v := by
  by_cases hc : c
  · simp [hc, throw, throwThe, MonadExceptOf.throw]
  · simp [hc]

/-- A refusal in front of the rest of a block. -/
theorem ite_throw_bind_eq_ok {c : Prop} [Decidable c] {e : ε} {k : PUnit → Except ε β} {v : β} :
    (if c then (throw e : Except ε PUnit) >>= k else k ⟨⟩) = .ok v ↔ ¬ c ∧ k ⟨⟩ = .ok v :=
  ite_throw_eq_ok

theorem ite_error_eq_ok {c : Prop} [Decidable c] {e : ε} {k : Except ε β} {v : β} :
    (if c then .error e else k) = .ok v ↔ ¬ c ∧ k = .ok v :=
  ite_throw_eq_ok

/-- A refusal in front of a step that also leaves a state. -/
theorem ite_error_fst_eq_ok {σ : Type*} {c : Prop} [Decidable c] {e : ε} {s : σ}
    {k : Except ε β × σ} {v : β} :
    (if c then (.error e, s) else k).1 = .ok v ↔ ¬ c ∧ k.1 = .ok v := by
  by_cases hc : c <;> simp [hc]

/-- A check of every element of a list. -/
theorem forM_eq_ok {f : α → Except ε Unit} {l : List α} :
    l.forM f = .ok () ↔ ∀ a ∈ l, f a = .ok () := by
  induction l with
  | nil => exact iff_of_true rfl (by simp)
  | cons a l ih =>
      have hcons : (a :: l).forM f = f a >>= fun _ => l.forM f := rfl
      rw [hcons, bind_eq_ok]
      constructor
      · rintro ⟨_, ha, hl⟩ b hb
        rcases List.mem_cons.mp hb with rfl | hb
        · exact ha
        · exact ih.mp hl b hb
      · intro h
        exact ⟨(), h a List.mem_cons_self, ih.mpr fun b hb => h b (List.mem_cons_of_mem _ hb)⟩

/-- A step for every element of a list. -/
theorem mapM_eq_ok {f : α → Except ε β} {l : List α} {r : List β} :
    l.mapM f = .ok r ↔ List.Forall₂ (fun a b => f a = .ok b) l r := by
  induction l generalizing r with
  | nil =>
      rw [List.mapM_nil, List.forall₂_nil_left_iff]
      exact ⟨fun h => (Except.ok.inj h).symm, fun h => h ▸ rfl⟩
  | cons a l ih =>
      rw [List.mapM_cons, bind_eq_ok, List.forall₂_cons_left_iff]
      constructor
      · rintro ⟨b, hb, h⟩
        obtain ⟨bs, hbs, h⟩ := bind_eq_ok.mp h
        exact ⟨b, bs, hb, ih.mp hbs, (Except.ok.inj h).symm⟩
      · rintro ⟨b, bs, hb, hbs, rfl⟩
        exact ⟨b, hb, bind_eq_ok.mpr ⟨bs, ih.mpr hbs, rfl⟩⟩

/-- A step for every element that cannot fail. -/
theorem mapM_eq_ok_map {f : α → Except ε β} {g : α → β} {l : List α}
    (h : ∀ a ∈ l, f a = .ok (g a)) :
    l.mapM f = .ok (l.map g) := by
  rw [mapM_eq_ok, List.forall₂_map_right_iff, List.forall₂_same]
  exact h

/-- A step for every element that succeeds under a condition, with a value that it determines. -/
theorem mapM_eq_ok_iff_map {f : α → Except ε β} {g : α → β} {P : α → Prop} {l : List α} {r : List β}
    (h : ∀ a ∈ l, ∀ b, f a = .ok b ↔ P a ∧ b = g a) :
    l.mapM f = .ok r ↔ (∀ a ∈ l, P a) ∧ r = l.map g := by
  constructor
  · intro hr
    have hall := mapM_eq_ok.mp hr
    clear hr
    induction hall with
    | nil => exact ⟨nofun, rfl⟩
    | cons hfirst _ ih =>
        obtain ⟨hP, rfl⟩ := (h _ List.mem_cons_self _).mp hfirst
        obtain ⟨hrest, rfl⟩ := ih fun a ha => h a (List.mem_cons_of_mem _ ha)
        exact ⟨List.forall_mem_cons.mpr ⟨hP, hrest⟩, rfl⟩
  · rintro ⟨hall, rfl⟩
    exact mapM_eq_ok_map fun a ha => (h a ha (g a)).mpr ⟨hall a ha, rfl⟩

theorem exists_of_mem_mapM {f : α → Except ε β} {l : List α} {r : List β} (h : l.mapM f = .ok r)
    {b : β} (hb : b ∈ r) : ∃ a ∈ l, f a = .ok b := by
  have hall := mapM_eq_ok.mp h
  clear h
  induction hall with
  | nil => cases hb
  | cons ha _ ih =>
      rcases List.mem_cons.mp hb with rfl | hb
      · exact ⟨_, List.mem_cons_self, ha⟩
      · obtain ⟨a, hmem, ha⟩ := ih hb
        exact ⟨a, List.mem_cons_of_mem _ hmem, ha⟩

end PmxAgents.Lib.Checks

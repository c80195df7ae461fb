import Mathlib.Data.List.Nodup

/-!
# Adding what is missing

A loop over required items that appends each one that a list does not have yet, and says whether it
appended any.
-/

namespace PmxAgents.Lib.Missing

variable {α : Type*} [DecidableEq α]

/-- The list with the required items that it did not have, and whether there were any. -/
def add : List α → List α → List α × Bool
  | items, [] => (items, false)
  | items, item :: rest =>
      if item ∈ items then add items rest
      else ((add (items ++ [item]) rest).1, true)

theorem add_spec (items required : List α) :
    ∃ missing, (add items required).1 = items ++ missing ∧ missing.Nodup ∧
      (∀ item, item ∈ missing ↔ item ∈ required ∧ item ∉ items) ∧
      ((add items required).2 = false ↔ missing = []) := by
  induction required generalizing items with
  | nil => exact ⟨[], by simp [add]⟩
  | cons item rest ih =>
      rw [add]
      by_cases hmem : item ∈ items
      · rw [if_pos hmem]
        obtain ⟨missing, heq, hnodup, hmissing, hflag⟩ := ih items
        refine ⟨missing, heq, hnodup, fun t => ?_, hflag⟩
        rw [hmissing, List.mem_cons]
        constructor
        · exact fun h => ⟨.inr h.1, h.2⟩
        · rintro ⟨rfl | h, hnot⟩
          · exact absurd hmem hnot
          · exact ⟨h, hnot⟩
      · rw [if_neg hmem]
        -- the item itself comes first, and is not missing afterwards
        obtain ⟨missing, heq, hnodup, hmissing, -⟩ := ih (items ++ [item])
        refine ⟨item :: missing, by simp [heq], ?_, fun t => ?_, by simp⟩
        · refine List.nodup_cons.mpr ⟨fun h => ?_, hnodup⟩
          exact ((hmissing item).mp h).2 (by simp)
        · rw [List.mem_cons, hmissing, List.mem_cons, List.mem_append, List.mem_singleton]
          constructor
          · rintro (rfl | ⟨hrest, hnot⟩)
            · exact ⟨.inl rfl, hmem⟩
            · exact ⟨.inr hrest, fun h => hnot (.inl h)⟩
          · rintro ⟨rfl | hrest, hnot⟩
            · exact .inl rfl
            · by_cases hitem : t = item
              · exact .inl hitem
              · exact .inr ⟨hrest, not_or.mpr ⟨hnot, hitem⟩⟩

theorem add_eq_false_iff {items required : List α} :
    (add items required).2 = false ↔ ∀ item ∈ required, item ∈ items := by
  obtain ⟨missing, -, -, hmissing, hflag⟩ := add_spec items required
  rw [hflag, List.eq_nil_iff_forall_not_mem]
  constructor
  · intro h item hitem
    by_contra hnot
    exact h item ((hmissing item).mpr ⟨hitem, hnot⟩)
  · intro h item hitem
    obtain ⟨hrequired, hnot⟩ := (hmissing item).mp hitem
    exact hnot (h item hrequired)

end PmxAgents.Lib.Missing

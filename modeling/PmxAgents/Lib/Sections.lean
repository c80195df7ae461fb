import Mathlib.Data.List.Basic

/-!
# Sections of a list

A list that is read in sections: the items before the first header, and then one section for each
header. Whoever appends to the list as a whole appends to its last section.
-/

namespace PmxAgents.Lib

variable {α : Type*}

/-- The items before the first header, and what follows each header. -/
structure Sections (α : Type*) where
  first : List α
  later : List (α × List α)

namespace Sections

variable (header : α → Bool)

/-- The sections of a list. -/
def split : List α → Sections α
  | [] => ⟨[], []⟩
  | item :: rest =>
      let s := split rest
      if header item then ⟨[], (item, s.first) :: s.later⟩ else ⟨item :: s.first, s.later⟩

variable {header} {items extra : List α}

theorem split_of_no_header (h : ∀ item ∈ extra, header item = false) :
    split header extra = ⟨extra, []⟩ := by
  induction extra with
  | nil => rfl
  | cons item rest ih =>
      have hitem : ¬ header item = true := by
        rw [h item List.mem_cons_self]
        exact Bool.false_ne_true
      rw [split, ih fun i hi => h i (List.mem_cons_of_mem item hi)]
      exact if_neg hitem

theorem first_split_of_later_eq_nil (hlater : (split header items).later = []) :
    (split header items).first = items := by
  induction items with
  | nil => rfl
  | cons item rest ih =>
      rw [split] at hlater ⊢
      by_cases hitem : header item = true
      · rw [if_pos hitem] at hlater
        cases hlater
      · rw [if_neg hitem] at hlater ⊢
        exact congrArg (item :: ·) (ih hlater)

/-- Without a header, what is appended goes to the first section. -/
theorem split_append_of_later_eq_nil (h : ∀ item ∈ extra, header item = false)
    (hlater : (split header items).later = []) :
    split header (items ++ extra) = ⟨(split header items).first ++ extra, []⟩ := by
  induction items with
  | nil => exact split_of_no_header h
  | cons item rest ih =>
      rw [split] at hlater
      rw [List.cons_append, split, split]
      by_cases hitem : header item = true
      · rw [if_pos hitem] at hlater
        cases hlater
      · rw [if_neg hitem] at hlater ⊢
        rw [ih hlater, if_neg hitem, List.cons_append]

/-- With one, the first section does not get any of it. -/
theorem first_split_append_of_later_ne_nil (extra : List α)
    (hlater : (split header items).later ≠ []) :
    (split header (items ++ extra)).first = (split header items).first := by
  induction items with
  | nil => exact absurd rfl hlater
  | cons item rest ih =>
      rw [split] at hlater
      rw [List.cons_append, split, split]
      by_cases hitem : header item = true
      · rw [if_pos hitem, if_pos hitem]
      · rw [if_neg hitem] at hlater ⊢
        rw [if_neg hitem]
        exact congrArg (item :: ·) (ih hlater)

theorem mem_of_mem_first {item : α} (h : item ∈ (split header items).first) : item ∈ items := by
  induction items with
  | nil => exact h
  | cons i rest ih =>
      rw [split] at h
      by_cases hitem : header i = true
      · rw [if_pos hitem] at h
        cases h
      · rw [if_neg hitem] at h
        rcases List.mem_cons.mp h with rfl | h
        · exact List.mem_cons_self
        · exact List.mem_cons_of_mem i (ih h)

end Sections

end PmxAgents.Lib

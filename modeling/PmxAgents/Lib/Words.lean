import PmxAgents.Lib.Text

/-!
# Words of a line

A printed line is described by its words: what is printed with a space after it and a
word contribute their words one after the other.
-/

namespace PmxAgents.Lib.Text

/-- The parts of a line between white space. -/
def words (line : String) : List String := (fields line.toList).map String.ofList

/-- A text that is one word. -/
structure Word (s : String) : Prop where
  ne_nil : s.toList ≠ []
  not_space : ∀ c ∈ s.toList, isSpace c = false

instance (s : String) : Decidable (Word s) :=
  decidable_of_iff (s.toList ≠ [] ∧ s.toList.all (!isSpace ·) = true)
    ⟨fun h => ⟨h.1, by simpa using h.2⟩, fun h => ⟨h.1, by simpa using h.2⟩⟩

variable {s t w : String} {ws : List String}

theorem ne_nil_of_mem_fields {line v : List Char} (h : v ∈ fields line) : v ≠ [] := by
  induction line generalizing v with
  | nil => cases h
  | cons c line ih =>
      rw [fields] at h
      split_ifs at h
      · exact ih h
      · split at h
        · rename_i hrest
          rcases List.mem_cons.mp h with rfl | h
          · exact List.cons_ne_nil _ _
          · exact ih (hrest ▸ List.mem_cons_of_mem _ h)
        · rcases List.mem_cons.mp h with rfl | h
          · exact List.cons_ne_nil _ _
          · exact ih h

theorem words_space (s t : String) : words (s ++ " " ++ t) = words s ++ words t := by
  have hspace : (" " : String).toList = [' '] := rfl
  rw [words, String.toList_append, String.toList_append, hspace, List.append_assoc,
    List.singleton_append, fields_append_space (by decide), List.map_append]
  rfl

theorem Word.words_eq (h : Word w) : words w = [w] := by
  rw [words, fields_of_word h.ne_nil h.not_space, List.map_singleton, String.ofList_toList]

/-- A word that ends with the space before the next one. -/
theorem words_head (hs : words s = [w]) (t : String) : words (s ++ " " ++ t) = w :: words t := by
  rw [words_space, hs, List.singleton_append]

theorem intercalate_cons_cons (sep v w : String) (ws : List String) :
    sep.intercalate (v :: w :: ws) = v ++ sep ++ sep.intercalate (w :: ws) := by
  rw [← String.toList_inj, String.toList_append, String.toList_append, String.toList_intercalate,
    String.toList_intercalate]
  simp [List.intercalate]

/-- Texts joined by spaces have the words of all of them. -/
theorem words_intercalate (ws : List String) : words (" ".intercalate ws) = ws.flatMap words := by
  induction ws with
  | nil => rfl
  | cons v ws ih =>
      cases ws with
      | nil => rw [List.flatMap_singleton]; rfl
      | cons w ws => rw [intercalate_cons_cons, words_space, ih, List.flatMap_cons]; rfl

theorem words_intercalate_of_word (h : ∀ w ∈ ws, Word w) : words (" ".intercalate ws) = ws := by
  rw [words_intercalate]
  induction ws with
  | nil => rfl
  | cons w ws ih =>
      rw [List.flatMap_cons, (h w List.mem_cons_self).words_eq,
        ih fun v hv => h v (List.mem_cons_of_mem _ hv), List.singleton_append]

/-- The parts of a line between white space are words. -/
theorem word_of_mem_words {line : String} (h : w ∈ words line) : Word w := by
  obtain ⟨v, hv, rfl⟩ := List.mem_map.mp h
  refine ⟨?_, ?_⟩
  · rw [String.toList_ofList]
    exact ne_nil_of_mem_fields hv
  · rw [String.toList_ofList]
    exact isSpace_of_mem_fields hv

end PmxAgents.Lib.Text

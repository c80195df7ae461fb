import PmxAgents.Lib.LineSplit

/-!
# Text between delimiters

A search for delimiters finds the first pair in a text, whatever stands before or after
it. In a text that is put together from parts, it is the pair of the first part that opens
one.
-/

namespace PmxAgents.Lib.Delimited

/-- The text behind the first occurrence of a character. -/
def after (c : Char) : List Char → Option (List Char)
  | [] => none
  | d :: rest => if d = c then some rest else after c rest

/-- The text between the first opening character and the next closing one. -/
def between (opening closing : Char) (s : List Char) : Option (List Char) :=
  (after opening s).bind fun tail =>
    if closing ∈ tail then some (Text.before closing tail) else none

section After
variable {c : Char} {s : List Char}

theorem after_append_of_notMem (h : c ∉ s) (t : List Char) : after c (s ++ t) = after c t := by
  induction s with
  | nil => rfl
  | cons d s ih =>
      have hd : d ≠ c := fun heq => h (heq ▸ List.mem_cons_self)
      rw [List.cons_append, after, if_neg hd, ih fun hmem => h (List.mem_cons_of_mem d hmem)]

theorem after_cons_self (c : Char) (t : List Char) : after c (c :: t) = some t := if_pos rfl

theorem after_append_cons (h : c ∉ s) (t : List Char) : after c (s ++ c :: t) = some t := by
  rw [after_append_of_notMem h, after_cons_self]

theorem after_of_notMem (h : c ∉ s) : after c s = none := by
  rw [← List.append_nil s, after_append_of_notMem h]
  rfl

end After

section Between
variable {opening closing : Char} {s : List Char}

theorem between_append_of_notMem (h : opening ∉ s) (t : List Char) :
    between opening closing (s ++ t) = between opening closing t := by
  rw [between, after_append_of_notMem h, between]

/-- A part that stands in delimiters, behind text that opens none. -/
theorem between_append {w : List Char} (hs : opening ∉ s) (hw : closing ∉ w) (t : List Char) :
    between opening closing (s ++ opening :: (w ++ closing :: t)) = some w := by
  rw [between, after_append_cons hs, Option.bind_some,
    if_pos (List.mem_append_right w List.mem_cons_self), Text.before_append hw]

/-- More text does not change the first pair. -/
theorem between_append_of_some {w : List Char} (h : between opening closing s = some w)
    (t : List Char) : between opening closing (s ++ t) = some w := by
  obtain ⟨tail, hafter, hw⟩ := Option.bind_eq_some_iff.mp h
  have hopen : opening ∈ s := by
    by_contra hmem
    rw [after_of_notMem hmem] at hafter
    cases hafter
  obtain ⟨a, b, rfl, ha⟩ := List.eq_append_cons_of_mem hopen
  rw [after_append_cons ha] at hafter
  obtain rfl := Option.some.inj hafter
  split_ifs at hw with hclose
  obtain ⟨a', b', rfl, ha'⟩ := List.eq_append_cons_of_mem hclose
  rw [Text.before_append ha'] at hw
  obtain rfl := Option.some.inj hw
  rw [List.append_assoc, List.cons_append, List.append_assoc, List.cons_append]
  exact between_append ha ha' (b' ++ t)

/-- A part without a pair leaves the search to what follows, or opens one that is closed there. -/
theorem between_append_of_none (h : between opening closing s = none) (t : List Char) :
    between opening closing (s ++ t) = between opening closing t ∨
      ∃ r, between opening closing (s ++ t) = between opening closing (opening :: (r ++ t)) ∧
        closing ∉ r := by
  by_cases hopen : opening ∈ s
  · obtain ⟨a, r, rfl, ha⟩ := List.eq_append_cons_of_mem hopen
    rw [between, after_append_cons ha, Option.bind_some] at h
    refine Or.inr ⟨r, ?_, fun hclose => ?_⟩
    · rw [List.append_assoc, List.cons_append, between_append_of_notMem ha]
    · rw [if_pos hclose] at h
      cases h
  · exact Or.inl (between_append_of_notMem hopen t)

end Between

/-! ## White space and words -/

theorem trim_eq_self {c d : Char} (hc : Text.isSpace c = false) (hd : Text.isSpace d = false)
    (s : List Char) : Text.trim (c :: (s ++ [d])) = c :: (s ++ [d]) := by
  simp [Text.trim, hc, hd]

theorem trim_of_word {w : List Char} (hw : ∀ c ∈ w, Text.isSpace c = false) : Text.trim w = w := by
  have hdrop : ∀ l : List Char, (∀ c ∈ l, Text.isSpace c = false) →
      l.dropWhile Text.isSpace = l := by
    intro l hl
    cases l with
    | nil => rfl
    | cons c rest => rw [List.dropWhile_cons_of_neg (by simp [hl c])]
  rw [Text.trim, hdrop w hw, hdrop w.reverse fun c hc => hw c (List.mem_reverse.mp hc),
    List.reverse_reverse]

/-- A text with a character that is no white space has something left. -/
theorem trim_ne_nil {c : Char} {s : List Char} (hc : Text.isSpace c = false) (h : c ∈ s) :
    Text.trim s ≠ [] := by
  intro hnil
  obtain ⟨a, b, hs, ha, hb⟩ := LineSplit.exists_eq_append_trim s
  rw [hnil, List.append_nil] at hs
  rw [hs] at h
  rcases List.mem_append.mp h with hmem | hmem
  · exact Bool.false_ne_true (hc.symm.trans (ha c hmem))
  · exact Bool.false_ne_true (hc.symm.trans (hb c hmem))

/-- The first word of a text that begins with one. -/
theorem head?_fields {w : List Char} (hne : w ≠ [])
    (hw : ∀ c ∈ w, Text.isSpace c = false) {sp : Char}
    (hsp : Text.isSpace sp) (t : List Char) : (Text.fields (w ++ sp :: t)).head? = some w := by
  rw [Text.fields_append_space hsp, Text.fields_of_word hne hw]
  rfl

end PmxAgents.Lib.Delimited

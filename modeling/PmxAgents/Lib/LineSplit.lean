import PmxAgents.Lib.Scanner
import PmxAgents.Lib.Text

/-!
# Two ways to go through the lines of a text

`Scanner.scan` yields lines until one is too long, `Text.lines` yields all of them, and
they differ in the line ends they take off. What a reader that trims white space gets
from both can be read off from the parts between the line feeds: from those before the
first one that does not fit, and from all of them.
-/

namespace PmxAgents.Lib.LineSplit

open Scanner

/-! ## Parts between separators -/

section Parts
variable {α β : Type*} [DecidableEq α]

/-- A text is a part without separators, or such a part before a separator and a text. -/
theorem sepInduction (sep : α) {P : List α → Prop} (last : ∀ line, sep ∉ line → P line)
    (cons : ∀ line rest, sep ∉ line → P rest → P (line ++ sep :: rest)) (text : List α) :
    P text := by
  induction hn : text.length using Nat.strongRecOn generalizing text with
  | ind n ih =>
      by_cases hmem : sep ∈ text
      · obtain ⟨line, rest, rfl, hline⟩ := List.eq_append_cons_of_mem hmem
        refine cons line rest hline (ih rest.length ?_ rest rfl)
        rw [← hn, List.length_append, List.length_cons]
        omega
      · exact last text hmem

theorem splitOn_append_cons {sep : α} {line : List α} (hline : sep ∉ line) (rest : List α) :
    (line ++ sep :: rest).splitOn sep = line :: rest.splitOn sep := by
  have hsplit : (line ++ sep :: rest).splitOn sep = line.splitOn sep ++ rest.splitOn sep :=
    List.splitOnP_append_cons line rest (beq_self_eq_true sep)
  rw [hsplit, List.splitOn_eq_singleton hline, List.singleton_append]

/-- What is taken from the lines of a scan. The empty part after the last line end is no line. -/
theorem filterMap_scan (A : Alphabet α) {g : List α → Option β} (hnil : g [] = none)
    (hcr : ∀ line, g (dropCR A line) = g line) (text : List α) :
    (scan A text).tokens.filterMap g =
      ((text.splitOn A.newline).takeWhile (Fits A ·)).filterMap g := by
  induction text using sepInduction A.newline with
  | last line hline =>
      rw [List.splitOn_eq_singleton hline]
      by_cases hfits : Fits A line
      · by_cases hne : line = []
        · subst hne
          simp [hnil, hfits]
        · rw [scan_last A hline hne hfits]
          simp [hfits, hcr, List.filterMap_cons]
      · have hlong := scan_tooLong A hline hfits (Or.inl rfl)
        rw [List.append_nil] at hlong
        simp [hlong, hfits]
  | cons line rest hline ih =>
      rw [splitOn_append_cons hline]
      by_cases hfits : Fits A line
      · rw [scan_line A hline hfits]
        simp [hfits, hcr, List.filterMap_cons, ih]
      · rw [scan_tooLong A hline hfits (Or.inr rfl)]
        simp [hfits]

end Parts

/-! ## Lines -/

section Lines
variable {β : Type*}

/-- A line with its line feed, which a carriage return may precede. -/
theorem lines_append_cons {line : List Char} (hline : '\n' ∉ line) (rest : List Char) :
    ∃ line', (line' = line ∨ line = line' ++ ['\r']) ∧
      Text.lines (line ++ '\n' :: rest) = line' :: Text.lines rest := by
  induction line with
  | nil => exact ⟨[], Or.inl rfl, rfl⟩
  | cons c line ih =>
      obtain ⟨hc, hrest⟩ : '\n' ≠ c ∧ '\n' ∉ line := by simpa using hline
      rw [List.cons_append, Text.lines, if_neg (Ne.symm hc)]
      split_ifs with hcr
      · -- the carriage return stands before the line feed, so the line is over
        obtain ⟨rfl, hhead⟩ := hcr
        have hnil : line = [] := by
          cases line with
          | nil => rfl
          | cons d line => simp_all
        subst hnil
        exact ⟨[], Or.inr rfl, rfl⟩
      · obtain ⟨line', hline', heq⟩ := ih hrest
        rw [heq]
        refine ⟨c :: line', ?_, rfl⟩
        rcases hline' with rfl | rfl
        · exact Or.inl rfl
        · exact Or.inr rfl

/-- What is taken from all lines of a text. -/
theorem filterMap_lines {g : List Char → Option β} (hnil : g [] = none)
    (hcr : ∀ line, g (line ++ ['\r']) = g line) (text : List Char) :
    (Text.lines text).filterMap g = (text.splitOn '\n').filterMap g := by
  induction text using sepInduction '\n' with
  | last line hline =>
      rw [List.splitOn_eq_singleton hline]
      by_cases hne : line = []
      · subst hne
        simp [Text.lines, hnil]
      · rw [Text.lines_of_not_mem hne hline]
  | cons line rest hline ih =>
      obtain ⟨line', hline', heq⟩ := lines_append_cons hline rest
      have hg : g line' = g line := by
        rcases hline' with rfl | rfl
        · rfl
        · exact (hcr line').symm
      rw [heq, splitOn_append_cons hline, List.filterMap_cons, List.filterMap_cons, hg, ih]

end Lines

/-! ## Comments and white space -/

section Trim
variable {c : Char} {s t : List Char}

theorem trim_append_left (hs : ∀ d ∈ s, Text.isSpace d) : Text.trim (s ++ t) = Text.trim t := by
  rw [Text.trim, List.dropWhile_append_of_pos hs, Text.trim]

theorem trim_append_right (ht : ∀ d ∈ t, Text.isSpace d) : Text.trim (s ++ t) = Text.trim s := by
  have hdrop : (s ++ t).dropWhile Text.isSpace = s.dropWhile Text.isSpace ++ t ∨
      (s.dropWhile Text.isSpace = [] ∧ (s ++ t).dropWhile Text.isSpace = []) := by
    induction s with
    | nil =>
        right
        simpa using ht
    | cons d s ih =>
        by_cases hd : Text.isSpace d
        · simpa [hd] using ih
        · left
          simp [hd]
  have hrev : ∀ d ∈ t.reverse, Text.isSpace d := fun d hd => ht d (List.mem_reverse.mp hd)
  rcases hdrop with hdrop | ⟨hs, hst⟩
  · rw [Text.trim, hdrop, List.reverse_append, List.dropWhile_append_of_pos hrev, Text.trim]
  · rw [Text.trim, hst, Text.trim, hs]

theorem exists_eq_append_trim (s : List Char) :
    ∃ a b, s = a ++ Text.trim s ++ b ∧ (∀ d ∈ a, Text.isSpace d) ∧ ∀ d ∈ b, Text.isSpace d := by
  refine ⟨s.takeWhile Text.isSpace,
    ((s.dropWhile Text.isSpace).reverse.takeWhile Text.isSpace).reverse, ?_, ?_, ?_⟩
  · rw [Text.trim, List.append_assoc, ← List.reverse_append, List.takeWhile_append_dropWhile,
      List.reverse_reverse, List.takeWhile_append_dropWhile]
  · exact fun d hd => List.mem_takeWhile_imp hd
  · exact fun d hd => List.mem_takeWhile_imp (List.mem_reverse.mp hd)

theorem before_append_left (hs : c ∉ s) : Text.before c (s ++ t) = s ++ Text.before c t := by
  rw [Text.before, List.takeWhile_append_of_pos, Text.before]
  intro d hd
  exact decide_eq_true fun heq => hs (heq ▸ hd)

/-- White space at the end of a line does not matter, whether or not it belongs to a comment. -/
theorem trim_before_append_right (ht : ∀ d ∈ t, Text.isSpace d) :
    Text.trim (Text.before c (s ++ t)) = Text.trim (Text.before c s) := by
  by_cases hs : c ∈ s
  · obtain ⟨a, b, rfl, ha⟩ := List.eq_append_cons_of_mem hs
    rw [List.append_assoc, List.cons_append, Text.before_append ha, Text.before_append ha]
  · rw [before_append_left hs, Text.before_of_not_mem hs]
    refine trim_append_right fun d hd => ht d ?_
    exact (List.takeWhile_prefix _).subset hd

/-- A line may be trimmed before its comment is cut off. -/
theorem trim_before_trim (hc : Text.isSpace c = false) (s : List Char) :
    Text.trim (Text.before c (Text.trim s)) = Text.trim (Text.before c s) := by
  obtain ⟨a, b, hs, ha, hb⟩ := exists_eq_append_trim s
  have hca : c ∉ a := fun hmem => by simpa [hc] using ha c hmem
  calc
    Text.trim (Text.before c (Text.trim s))
      = Text.trim (Text.before c (Text.trim s ++ b)) := (trim_before_append_right hb).symm
    _ = Text.trim (a ++ Text.before c (Text.trim s ++ b)) := (trim_append_left ha).symm
    _ = Text.trim (Text.before c (a ++ (Text.trim s ++ b))) := by rw [before_append_left hca]
    _ = Text.trim (Text.before c s) := by rw [← List.append_assoc, ← hs]

end Trim

end PmxAgents.Lib.LineSplit

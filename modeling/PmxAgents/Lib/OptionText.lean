import PmxAgents.Lib.Text

/-!
# Lists of options in a text

Options are written with a separator between them, each as a key, a sign and a value, or as a
value alone. The reader splits the text at every separator and each part at its first sign. It
finds what was written exactly if no part has the separator in it.
-/

namespace PmxAgents.Lib.OptionText

open Text

variable {sep sign : Char}

/-- A value with its key, or without one. -/
abbrev Entry := Option (List Char) × List Char

def print (sign : Char) : Entry → List Char
  | (none, value) => value
  | (some key, value) => key ++ sign :: value

def printAll (sep sign : Char) (l : List Entry) : List Char :=
  [sep].intercalate (l.map (print sign))

/-- The part is cut at the first sign. -/
def entry (sign : Char) (s : List Char) : Entry :=
  if sign ∈ s then (some (before sign s), s.drop ((before sign s).length + 1)) else (none, s)

def entries (sep sign : Char) (s : List Char) : List Entry :=
  (split sep s).map (entry sign)

/-- The first sign of the printed entry, if there is one, stands after its key. -/
def Keyed (sign : Char) (e : Entry) : Prop :=
  match e.1 with
  | none => sign ∉ e.2
  | some key => sign ∉ key

theorem entry_print {e : Entry} (h : Keyed sign e) : entry sign (print sign e) = e := by
  obtain ⟨key, value⟩ := e
  cases key with
  | none => exact if_neg h
  | some key =>
      have hkey : sign ∉ key := h
      have hdrop : (key ++ sign :: value).drop (key.length + 1) = value := by
        rw [← List.drop_drop, List.drop_left, List.drop_one, List.tail_cons]
      rw [print, entry, if_pos (List.mem_append_right key List.mem_cons_self), before_append hkey,
        hdrop]

/-- As many parts as texts are joined: none of them has the separator. -/
theorem forall_notMem_of_length {l : List (List Char)}
    (h : (l.flatMap (split sep)).length = l.length) : ∀ w ∈ l, sep ∉ w := by
  -- every text gives one part at least, so that one with more would have to be made up for
  have hle : ∀ l : List (List Char), l.length ≤ (l.flatMap (split sep)).length := by
    intro l
    induction l with
    | nil => exact le_rfl
    | cons w l ih =>
        have hw := List.length_pos_iff.mpr (split_ne_nil sep w)
        rw [List.flatMap_cons, List.length_append, List.length_cons]
        omega
  induction l with
  | nil => exact fun w hw => absurd hw List.not_mem_nil
  | cons w l ih =>
      have hw := List.length_pos_iff.mpr (split_ne_nil sep w)
      have hl := hle l
      rw [List.flatMap_cons, List.length_append, List.length_cons] at h
      have hone : sep ∉ w := length_split_eq_one_iff.mp (by omega)
      exact List.forall_mem_cons.mpr ⟨hone, ih (by omega)⟩

/-- What was written is read exactly if no entry has the separator in it. -/
theorem entries_printAll_iff {l : List Entry} (hne : l ≠ []) (hkeyed : ∀ e ∈ l, Keyed sign e) :
    entries sep sign (printAll sep sign l) = l ↔ ∀ e ∈ l, sep ∉ print sign e := by
  have hmap : l.map (print sign) ≠ [] := by simpa using hne
  have hmem : (∀ w ∈ l.map (print sign), sep ∉ w) ↔ ∀ e ∈ l, sep ∉ print sign e :=
    List.forall_mem_map
  constructor
  · intro h
    have hlength := congrArg List.length h
    rw [entries, printAll, List.length_map, split_intercalate_flatMap hmap] at hlength
    exact hmem.mp (forall_notMem_of_length (hlength.trans (List.length_map _).symm))
  · intro h
    rw [entries, printAll, split_intercalate hmap (hmem.mpr h), List.map_map]
    conv_rhs => rw [← List.map_id l]
    exact List.map_congr_left fun e he => entry_print (hkeyed e he)

end PmxAgents.Lib.OptionText

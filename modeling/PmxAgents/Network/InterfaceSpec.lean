import Mathlib.Data.List.Infix
import PmxAgents.Lib.Checks
import PmxAgents.Lib.IpText
import PmxAgents.Lib.Text
import PmxAgents.Network.Ruleset

/-!
# Rendered lines

Files are rendered from lines of checked values. Checked values have visible ASCII
characters only, and lines of printable characters are found again in the file.
-/

namespace PmxAgents.Network.Interfaces

open Lib Lib.Ascii

/-! ## Rendering -/

/-- The characters of a file. -/
def joinLines (lines : List String) : List Char :=
  lines.flatMap fun line => line.toList ++ ['\n']

/-! ## Characters of checked values -/

/-- A visible ASCII character that neither a comment nor a JSON string treats in a special way. -/
def isPlain (c : Char) : Bool :=
  0x21 ≤ c.toNat && c.toNat < 0x7f && c.toNat ≠ 0x22 && c.toNat ≠ 0x23 && c.toNat ≠ 0x5c

def isPrintable (c : Char) : Bool := 0x20 ≤ c.toNat && c.toNat < 0x7f

section Characters
variable {c : Char}

theorem isSpace_of_isPlain (h : isPlain c) : Text.isSpace c = false := by
  simp only [isPlain, Bool.and_eq_true, decide_eq_true_eq] at h
  simp only [Text.isSpace, Bool.or_eq_false_iff, Bool.and_eq_false_iff, decide_eq_false_iff_not,
    beq_eq_false_iff_ne]
  omega

theorem isPlain_of_isAlphanum (h : c.isAlphanum) : isPlain c := by
  simp only [isPlain, Bool.and_eq_true, decide_eq_true_eq]
  rcases (Bool.or_eq_true _ _).mp h with h | h
  · have hrange := Ascii.toNat_of_isAlpha h
    omega
  · have hrange := Ascii.toNat_of_isDigit h
    omega

theorem isPlain_of_isDigit (h : c.isDigit) : isPlain c :=
  isPlain_of_isAlphanum (by simp [Char.isAlphanum, h])

end Characters

/-- A text of plain characters only, with at least one. -/
structure PlainWord (s : String) : Prop where
  ne_nil : s.toList ≠ []
  plain : ∀ c ∈ s.toList, isPlain c

section Checked
variable {value field name : String}

theorem splitOnce_eq_some {sep : Char} {a b : String} (h : splitOnce sep value = some (a, b)) :
    value.toList = a.toList ++ sep :: b.toList := by
  rw [splitOnce] at h
  split_ifs at h with hsep
  obtain ⟨rfl, rfl⟩ : String.ofList (value.toList.takeWhile (· ≠ sep)) = a ∧
      String.ofList ((value.toList.dropWhile (· ≠ sep)).drop 1) = b := by simpa using h
  have hhead : (value.toList.dropWhile (· ≠ sep)).head? = some sep := by
    cases hdrop : value.toList.dropWhile (· ≠ sep) with
    | nil => exact absurd (List.dropWhile_eq_nil_iff.mp hdrop sep hsep) (by simp)
    | cons c rest =>
        have hc := List.head?_dropWhile_not (· ≠ sep) value.toList
        rw [hdrop] at hc
        simpa using hc
  obtain ⟨rest, hrest⟩ := List.head?_eq_some_iff.mp hhead
  rw [String.toList_ofList, String.toList_ofList, hrest, List.drop_one, List.tail_cons, ← hrest,
    List.takeWhile_append_dropWhile]

theorem plain_of_parseUnsigned {max n : ℕ} (h : parseUnsigned max value = some n) :
    PlainWord value := by
  simp only [parseUnsigned] at h
  split_ifs at h with hplus hdigits _ hdigits
  · obtain ⟨rest, hrest⟩ := List.head?_eq_some_iff.mp hplus
    rw [hrest] at hdigits
    refine ⟨by simp [hrest], fun c hc => ?_⟩
    rw [hrest] at hc
    rcases List.mem_cons.mp hc with rfl | hc
    · decide
    · exact isPlain_of_isDigit (List.all_eq_true.mp hdigits.2 c (by simpa using hc))
  · exact ⟨hdigits.1, fun c hc => isPlain_of_isDigit (List.all_eq_true.mp hdigits.2 c hc)⟩

end Checked

/-! ## Lines of a rendered file -/

section Lines
variable {name : String} {l p rest : List Char}

theorem not_mem_of_isPrintable (h : ∀ c ∈ l, isPrintable c) : '\n' ∉ l ∧ '\r' ∉ l :=
  ⟨fun hc => absurd (h _ hc) (by decide), fun hc => absurd (h _ hc) (by decide)⟩

theorem joinLines_cons (line : String) (lines : List String) :
    joinLines (line :: lines) = line.toList ++ '\n' :: joinLines lines := by
  simp [joinLines]

theorem lines_joinLines {lines : List String}
    (h : ∀ line ∈ lines, ∀ c ∈ line.toList, isPrintable c) :
    Text.lines (joinLines lines) = lines.map String.toList := by
  induction lines with
  | nil => rfl
  | cons line lines ih =>
      obtain ⟨hlf, hcr⟩ := not_mem_of_isPrintable (h line List.mem_cons_self)
      rw [joinLines_cons, Text.lines_append_lf hlf hcr,
        ih fun l hl => h l (List.mem_cons_of_mem _ hl), List.map_cons]

end Lines

/-! ## Characters of a rendered file -/

section Printable
variable {s t : String} {name : String}

def Printable (s : String) : Prop := ∀ c ∈ s.toList, isPrintable c

instance (s : String) : Decidable (Printable s) := List.decidableBAll _ _

theorem Printable.append (hs : Printable s) (ht : Printable t) : Printable (s ++ t) := by
  intro c hc
  rw [String.toList_append, List.mem_append] at hc
  exact hc.elim (hs c) (ht c)

end Printable

end PmxAgents.Network.Interfaces

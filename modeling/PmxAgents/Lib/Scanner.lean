import Mathlib.Algebra.BigOperators.Group.List.Basic
import Mathlib.Algebra.GroupWithZero.Nat
import Mathlib.Data.List.Basic

/-!
# Scanning a text line by line

A line scanner with a buffer of bounded size: it yields the lines of a text without
their line ends and stops with an error at the first line that does not fit into
its buffer together with a line end. What it has yielded before stays yielded, so a
caller that does not ask for the error takes the start of a text for the whole.

The text is a list over any alphabet; a symbol has a size in bytes.
-/

namespace PmxAgents.Lib.Scanner

variable {α : Type*}

/-- The symbols that end a line, and how many bytes a symbol takes. -/
structure Alphabet (α : Type*) where
  newline : α
  cr : α
  size : α → ℕ

/-- The lines of a text up to the first one that is too long. -/
structure Scan (α : Type*) where
  tokens : List (List α)
  tooLong : Bool
  deriving DecidableEq

/-- The size of the buffer. -/
def maxScanTokenSize : ℕ := 64 * 1024

/-- Texts in UTF-8. -/
def utf8Lines : Alphabet Char := ⟨'\n', '\r', Char.utf8Size⟩

variable (A : Alphabet α)

def bytes (line : List α) : ℕ := (line.map A.size).sum

/-- The line fits into the buffer, with room for its end. -/
def Fits (line : List α) : Prop := bytes A line < maxScanTokenSize

instance (line : List α) : Decidable (Fits A line) := Nat.decLt _ _

theorem bytes_replicate (n : ℕ) (c : α) : bytes A (List.replicate n c) = n * A.size c := by
  simp [bytes]

variable [DecidableEq α]

def dropCR (line : List α) : List α :=
  if line.getLast? = some A.cr then line.dropLast else line

/-- Scan on, after the start of a line. -/
def scanFrom : List α → List α → Scan α
  | line, [] =>
      if line = [] then ⟨[], false⟩
      else if Fits A line then ⟨[dropCR A line], false⟩
      else ⟨[], true⟩
  | line, c :: rest =>
      if c = A.newline then
        if Fits A line then
          let s := scanFrom [] rest
          ⟨dropCR A line :: s.tokens, s.tooLong⟩
        else ⟨[], true⟩
      else scanFrom (line ++ [c]) rest

def scan (text : List α) : Scan α := scanFrom A [] text

@[simp] theorem scan_nil : scan A [] = ⟨[], false⟩ := rfl

theorem scanFrom_append {part : List α} (h : A.newline ∉ part) (line rest : List α) :
    scanFrom A line (part ++ rest) = scanFrom A (line ++ part) rest := by
  induction part generalizing line with
  | nil => simp
  | cons c part ih =>
      have hc : c ≠ A.newline := fun hc => h (by simp [hc])
      have hpart : A.newline ∉ part := fun hm => h (by simp [hm])
      rw [List.cons_append, scanFrom, if_neg hc, ih hpart, List.append_assoc,
        List.singleton_append]

/-- A line with its end. -/
theorem scan_line {line : List α} (h : A.newline ∉ line) (hfits : Fits A line) (rest : List α) :
    scan A (line ++ A.newline :: rest) =
      ⟨dropCR A line :: (scan A rest).tokens, (scan A rest).tooLong⟩ := by
  rw [scan, scanFrom_append A h, List.nil_append, scanFrom, if_pos rfl, if_pos hfits]
  rfl

/-- A last line without an end. -/
theorem scan_last {line : List α} (h : A.newline ∉ line) (hne : line ≠ []) (hfits : Fits A line) :
    scan A line = ⟨[dropCR A line], false⟩ := by
  have happ := scanFrom_append A h [] []
  rw [List.append_nil, List.nil_append] at happ
  rw [scan, happ, scanFrom, if_neg hne, if_pos hfits]

/-- A line that does not fit ends the scan. -/
theorem scan_tooLong {line : List α} (h : A.newline ∉ line) (hfits : ¬ Fits A line)
    {rest : List α} (hrest : rest = [] ∨ rest.head? = some A.newline) :
    scan A (line ++ rest) = ⟨[], true⟩ := by
  have hne : line ≠ [] := by
    rintro rfl
    exact hfits (show 0 < maxScanTokenSize by decide)
  rw [scan, scanFrom_append A h, List.nil_append]
  cases rest with
  | nil => rw [scanFrom, if_neg hne, if_neg hfits]
  | cons c rest =>
      have hc : c = A.newline := by simpa using hrest
      rw [scanFrom, if_pos hc, if_neg hfits]

theorem modifyHead_nil_append {β : Type*} (ls : List (List β)) :
    ls.modifyHead (([] : List β) ++ ·) = ls := by
  cases ls <;> rfl

theorem scanFrom_tooLong_eq_false (line text : List α) :
    (scanFrom A line text).tooLong = false ↔
      ∀ l ∈ (text.splitOnP (· == A.newline)).modifyHead (line ++ ·), Fits A l := by
  induction text generalizing line with
  | nil =>
      have hnil : Fits A [] := show 0 < maxScanTokenSize by decide
      rw [scanFrom]
      split_ifs with hline hfits
      · simp [hline, hnil]
      · simp [hfits]
      · simp [hfits]
  | cons c text ih =>
      rw [List.splitOnP_cons_eq_if_modifyHead, scanFrom]
      by_cases hc : c = A.newline
      · have hbeq : (c == A.newline) = true := beq_iff_eq.mpr hc
        have hrest := ih []
        rw [modifyHead_nil_append] at hrest
        rw [if_pos hc, if_pos hbeq, List.modifyHead_cons, List.append_nil,
          List.forall_mem_cons, ← hrest]
        split_ifs with hfits
        · simp [hfits]
        · simp [hfits]
      · have hbeq : ¬ (c == A.newline) = true := fun h => hc (beq_iff_eq.mp h)
        rw [if_neg hc, if_neg hbeq, ih, List.modifyHead_modifyHead]
        simp [Function.comp_def]

/-- The scan stops early exactly at a line that does not fit. -/
theorem scan_tooLong_eq_false (text : List α) :
    (scan A text).tooLong = false ↔ ∀ line ∈ text.splitOn A.newline, Fits A line := by
  rw [scan, scanFrom_tooLong_eq_false, modifyHead_nil_append, List.splitOn]

theorem dropCR_of_getLast? {line : List α} {c : α} (h : line.getLast? = some c) (hc : c ≠ A.cr) :
    dropCR A line = line := by
  rw [dropCR, h, if_neg (by simpa using hc)]

end PmxAgents.Lib.Scanner

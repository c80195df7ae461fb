import PmxAgents.Lib.LineSplit

/-!
# Lines of a stream

The lines of a text without their line ends, the text that is written from lines, and a reader
with a bounded buffer that gets the text in pieces. The reader finds all lines, however the text
is cut into pieces, exactly if every line fits into its buffer; it stops for good at one that does
not.
-/

namespace PmxAgents.Lib.ScanLines

open Scanner LineSplit

variable {α : Type*} (A : Alphabet α)

theorem bytes_append (a b : List α) : bytes A (a ++ b) = bytes A a + bytes A b := by
  rw [bytes, List.map_append, List.sum_append, bytes, bytes]

variable [DecidableEq α]

/-! ## Lines -/

/-- The lines of a text, after the start of one. -/
def linesFrom : List α → List α → List (List α)
  | line, [] => if line = [] then [] else [dropCR A line]
  | line, c :: rest =>
      if c = A.newline then dropCR A line :: linesFrom [] rest
      else linesFrom (line ++ [c]) rest

def lines (text : List α) : List (List α) := linesFrom A [] text

/-- Every line with a line end. -/
def unlines (ls : List (List α)) : List α := ls.flatMap (· ++ [A.newline])

section Lines
variable {A} {line part text : List α} {ls : List (List α)}

theorem linesFrom_append (h : A.newline ∉ part) (line rest : List α) :
    linesFrom A line (part ++ rest) = linesFrom A (line ++ part) rest := by
  induction part generalizing line with
  | nil => rw [List.nil_append, List.append_nil]
  | cons c part ih =>
      have hc : c ≠ A.newline := fun hc => h (hc ▸ List.mem_cons_self)
      have hpart : A.newline ∉ part := fun hmem => h (List.mem_cons_of_mem c hmem)
      rw [List.cons_append, linesFrom, if_neg hc, ih hpart, List.append_assoc,
        List.singleton_append]

theorem lines_append_cons (h : A.newline ∉ line) (rest : List α) :
    lines A (line ++ A.newline :: rest) = dropCR A line :: lines A rest := by
  rw [lines, linesFrom_append h, List.nil_append, linesFrom, if_pos rfl, lines]

/-- The lines of a written text. -/
theorem lines_unlines (h : ∀ line ∈ ls, A.newline ∉ line) :
    lines A (unlines A ls) = ls.map (dropCR A) := by
  induction ls with
  | nil => rfl
  | cons line ls ih =>
      have hline := h line List.mem_cons_self
      rw [unlines, List.flatMap_cons, List.append_assoc, List.singleton_append,
        lines_append_cons hline, ← unlines, ih fun l hl => h l (List.mem_cons_of_mem line hl),
        List.map_cons]

omit [DecidableEq α] in
/-- Joined by line ends and with one at the end. -/
theorem intercalate_append_newline (hne : ls ≠ []) :
    [A.newline].intercalate ls ++ [A.newline] = unlines A ls := by
  induction ls with
  | nil => exact absurd rfl hne
  | cons line rest ih =>
      cases rest with
      | nil => simp [unlines]
      | cons next more =>
          rw [List.intercalate_cons_cons, List.append_assoc, ih (List.cons_ne_nil next more)]
          simp [unlines]

theorem mem_of_mem_dropCR {c : α} (h : c ∈ dropCR A line) : c ∈ line := by
  rw [dropCR] at h
  split_ifs at h
  · exact List.dropLast_subset line h
  · exact h

theorem newline_notMem_of_linesFrom (hline : A.newline ∉ line) :
    ∀ l ∈ linesFrom A line text, A.newline ∉ l := by
  induction text generalizing line with
  | nil =>
      intro l hl
      rw [linesFrom] at hl
      split_ifs at hl
      · cases hl
      · rw [List.mem_singleton.mp hl]
        exact fun h => hline (mem_of_mem_dropCR h)
  | cons c rest ih =>
      intro l hl
      rw [linesFrom] at hl
      split_ifs at hl with hc
      · rcases List.mem_cons.mp hl with rfl | hl
        · exact fun h => hline (mem_of_mem_dropCR h)
        · exact ih List.not_mem_nil l hl
      · refine ih (fun h => ?_) l hl
        rcases List.mem_append.mp h with h | h
        · exact hline h
        · exact hc (List.mem_singleton.mp h).symm

theorem newline_notMem (h : line ∈ lines A text) : A.newline ∉ line :=
  newline_notMem_of_linesFrom List.not_mem_nil line h

/-- A scan that is not stopped yields the lines. -/
theorem tokens_scanFrom (h : (scanFrom A line text).tooLong = false) :
    (scanFrom A line text).tokens = linesFrom A line text := by
  induction text generalizing line with
  | nil =>
      rw [scanFrom] at h ⊢
      rw [linesFrom]
      split_ifs at h ⊢ <;> rfl
  | cons c rest ih =>
      rw [scanFrom] at h ⊢
      rw [linesFrom]
      by_cases hc : c = A.newline
      · rw [if_pos hc] at h ⊢
        rw [if_pos hc]
        split_ifs at h ⊢
        exact congrArg (dropCR A line :: ·) (ih h)
      · rw [if_neg hc] at h ⊢
        rw [if_neg hc]
        exact ih h

theorem tokens_scan (h : (scan A text).tooLong = false) : (scan A text).tokens = lines A text :=
  tokens_scanFrom h

theorem dropCR_of_notMem (h : A.cr ∉ line) : dropCR A line = line := by
  rw [dropCR, if_neg fun hlast => h (List.mem_of_getLast? hlast)]

theorem mem_of_mem_linesFrom {l : List α} {c : α} (hl : l ∈ linesFrom A line text) (hc : c ∈ l) :
    c ∈ line ∨ c ∈ text := by
  induction text generalizing line with
  | nil =>
      rw [linesFrom] at hl
      split_ifs at hl
      · cases hl
      · obtain rfl := List.mem_singleton.mp hl
        exact .inl (mem_of_mem_dropCR hc)
  | cons d rest ih =>
      rw [linesFrom] at hl
      split_ifs at hl
      · rcases List.mem_cons.mp hl with rfl | hl
        · exact .inl (mem_of_mem_dropCR hc)
        · exact .inr (List.mem_cons_of_mem d ((ih hl).resolve_left List.not_mem_nil))
      · rcases ih hl with h | h
        · rcases List.mem_append.mp h with h | h
          · exact .inl h
          · exact .inr (List.mem_cons.mpr (.inl (List.mem_singleton.mp h)))
        · exact .inr (List.mem_cons_of_mem d h)

theorem mem_of_mem_lines {l : List α} {c : α} (hl : l ∈ lines A text) (hc : c ∈ l) : c ∈ text :=
  (mem_of_mem_linesFrom hl hc).resolve_left List.not_mem_nil

theorem fits_dropCR (h : Fits A line) : Fits A (dropCR A line) := by
  rw [dropCR]
  split_ifs with hlast
  · rw [Fits, ← List.dropLast_append_getLast? A.cr hlast, bytes_append] at h
    exact (Nat.le_add_right _ _).trans_lt h
  · exact h

/-- Every line that a scan yields fits. -/
theorem fits_of_mem_scanFrom {l : List α} (hl : l ∈ (scanFrom A line text).tokens) : Fits A l := by
  induction text generalizing line with
  | nil =>
      rw [scanFrom] at hl
      split_ifs at hl with hempty hfits
      · cases hl
      · obtain rfl := List.mem_singleton.mp hl
        exact fits_dropCR hfits
      · cases hl
  | cons c rest ih =>
      rw [scanFrom] at hl
      split_ifs at hl with hc hfits
      · rcases List.mem_cons.mp hl with rfl | hl
        · exact fits_dropCR hfits
        · exact ih hl
      · cases hl
      · exact ih hl

theorem fits_of_mem_scan {l : List α} (hl : l ∈ (scan A text).tokens) : Fits A l :=
  fits_of_mem_scanFrom hl

/-- Written lines that fit are all read again. -/
theorem scan_unlines (hnewline : ∀ line ∈ ls, A.newline ∉ line) (hfits : ∀ line ∈ ls, Fits A line) :
    scan A (unlines A ls) = ⟨ls.map (dropCR A), false⟩ := by
  induction ls with
  | nil => rfl
  | cons line ls ih =>
      have hrest := ih (fun l hl => hnewline l (List.mem_cons_of_mem line hl))
        fun l hl => hfits l (List.mem_cons_of_mem line hl)
      rw [unlines, List.flatMap_cons, List.append_assoc, List.singleton_append,
        scan_line A (hnewline line List.mem_cons_self) (hfits line List.mem_cons_self), ← unlines,
        hrest, List.map_cons]

end Lines

/-! ## Reading in pieces -/

/-- What a reader has: the lines it has found, the start of the next one, and whether its buffer
is full without a line end in it. -/
structure Reading (α : Type*) where
  found : List (List α)
  line : List α
  full : Bool

namespace Reading

/-- One symbol. A full reader takes no more. -/
def take (max : ℕ) (r : Reading α) (c : α) : Reading α :=
  if r.full then r
  else if c = A.newline then { r with found := r.found ++ [dropCR A r.line], line := [] }
  else if bytes A (r.line ++ [c]) < max then { r with line := r.line ++ [c] }
  else { r with full := true }

/-- What one read brings. -/
def read (max : ℕ) (r : Reading α) (piece : List α) : Reading α := piece.foldl (take A max) r

/-- The lines after the end of the stream, where what is left is a last line. -/
def tokens (r : Reading α) : List (List α) :=
  if r.full ∨ r.line = [] then r.found else r.found ++ [dropCR A r.line]

end Reading

/-- Read after read, from an empty buffer. -/
def readAll (max : ℕ) (pieces : List (List α)) : Reading α :=
  pieces.foldl (Reading.read A max) ⟨[], [], false⟩

section Read
variable {A} {max : ℕ} {found : List (List α)} {line text : List α}

/-- How the stream is cut into pieces makes no difference. -/
theorem readAll_eq_read_flatten (pieces : List (List α)) :
    readAll A max pieces = Reading.read A max ⟨[], [], false⟩ pieces.flatten :=
  List.foldl_flatten.symm

theorem read_full (text : List α) :
    Reading.read A max ⟨found, line, true⟩ text = ⟨found, line, true⟩ := by
  induction text with
  | nil => rfl
  | cons c rest ih => exact ih

/-- The reader is full at the end exactly if a part between line ends did not fit. -/
theorem full_read_eq_false_iff (hline : bytes A line < max) :
    (Reading.read A max ⟨found, line, false⟩ text).full = false ↔
      ∀ l ∈ (text.splitOn A.newline).modifyHead (line ++ ·), bytes A l < max := by
  induction text generalizing found line with
  | nil => simp [Reading.read, List.splitOn, hline]
  | cons c rest ih =>
      have hempty : bytes A ([] : List α) < max := (Nat.zero_le _).trans_lt hline
      rw [Reading.read, List.foldl_cons, Reading.take, if_neg Bool.false_ne_true, ← Reading.read,
        List.splitOn, List.splitOnP_cons_eq_if_modifyHead]
      by_cases hc : c = A.newline
      · rw [if_pos hc, if_pos (beq_iff_eq.mpr hc), ih hempty, modifyHead_nil_append,
          List.modifyHead_cons, List.append_nil, List.forall_mem_cons, ← List.splitOn]
        exact (and_iff_right hline).symm
      · have hbeq : ¬ (c == A.newline) = true := fun h => hc (beq_iff_eq.mp h)
        rw [if_neg hc, if_neg hbeq, List.modifyHead_modifyHead]
        have hparts : ((line ++ ·) ∘ List.cons c) = ((line ++ [c]) ++ · : List α → List α) := by
          funext l
          simp
        rw [hparts, ← List.splitOn]
        split_ifs with hfits
        · exact ih hfits
        · -- the part that the symbol belongs to is too long
          rw [read_full]
          refine iff_of_false (by simp) fun h => hfits ?_
          obtain ⟨part, parts, hsplit⟩ :=
            List.exists_cons_of_ne_nil (List.splitOn_ne_nil A.newline rest)
          rw [hsplit, List.modifyHead_cons] at h
          have hpart := h _ List.mem_cons_self
          rw [bytes_append] at hpart
          exact (Nat.le_add_right _ _).trans_lt hpart

/-- A reader that is not full at the end has found the lines. -/
theorem tokens_read (h : (Reading.read A max ⟨found, line, false⟩ text).full = false) :
    (Reading.read A max ⟨found, line, false⟩ text).tokens A = found ++ linesFrom A line text := by
  induction text generalizing found line with
  | nil =>
      rw [Reading.read, List.foldl_nil, Reading.tokens, linesFrom]
      by_cases hline : line = []
      · rw [if_pos (.inr hline), if_pos hline, List.append_nil]
      · rw [if_neg (by simp [hline]), if_neg hline]
  | cons c rest ih =>
      rw [Reading.read, List.foldl_cons, Reading.take, if_neg Bool.false_ne_true,
        ← Reading.read] at h ⊢
      rw [linesFrom]
      by_cases hc : c = A.newline
      · rw [if_pos hc] at h ⊢
        rw [if_pos hc, ih h, List.append_assoc, List.singleton_append]
      · rw [if_neg hc] at h ⊢
        rw [if_neg hc]
        split_ifs at h ⊢
        · exact ih h
        · rw [read_full] at h
          cases h

/-- Without a line end there is no line to find. -/
theorem found_read {full : Bool} (h : A.newline ∉ text) :
    (Reading.read A max ⟨found, line, full⟩ text).found = found := by
  induction text generalizing line full with
  | nil => rfl
  | cons c rest ih =>
      have hc : c ≠ A.newline := fun hc => h (hc ▸ List.mem_cons_self)
      have hrest : A.newline ∉ rest := fun hmem => h (List.mem_cons_of_mem c hmem)
      rw [Reading.read, List.foldl_cons, Reading.take, ← Reading.read, if_neg hc]
      split_ifs <;> exact ih hrest

/-- The reader takes the whole stream exactly if every part between line ends fits. -/
theorem full_readAll_eq_false_iff (hmax : 0 < max) (pieces : List (List α)) :
    (readAll A max pieces).full = false ↔
      ∀ l ∈ pieces.flatten.splitOn A.newline, bytes A l < max := by
  rw [readAll_eq_read_flatten, full_read_eq_false_iff hmax, modifyHead_nil_append]

theorem tokens_readAll {pieces : List (List α)} (h : (readAll A max pieces).full = false) :
    (readAll A max pieces).tokens A = lines A pieces.flatten := by
  rw [readAll_eq_read_flatten] at h ⊢
  rw [tokens_read h, List.nil_append, lines]

end Read

end PmxAgents.Lib.ScanLines

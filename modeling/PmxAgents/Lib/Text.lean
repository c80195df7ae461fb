import Mathlib.Data.Int.Notation
import Mathlib.Data.List.Basic
import Mathlib.Data.List.DropRight

/-!
# Text as lists of characters

The operations on text that configuration files are read with: trimming, lines
and white-space separated fields, case and numerals. White space is the Unicode property, which the
standard libraries of the modelled languages share.
-/

namespace PmxAgents.Lib.Text

/-- The characters with the white-space property. -/
def isSpace (c : Char) : Bool :=
  let n := c.toNat
  (9 ≤ n && n ≤ 13) || n == 0x20 || n == 0x85 || n == 0xa0 || n == 0x1680 ||
    (0x2000 ≤ n && n ≤ 0x200a) || n == 0x2028 || n == 0x2029 || n == 0x202f || n == 0x205f ||
    n == 0x3000

/-- Remove white space at both ends. -/
def trim (s : List Char) : List Char :=
  ((s.dropWhile isSpace).reverse.dropWhile isSpace).reverse

theorem trim_trim (s : List Char) : trim (trim s) = trim s := by
  have hdrop : (trim s).dropWhile isSpace = trim s := by
    cases ht : trim s with
    | nil => rfl
    | cons c rest =>
        -- the first character of the result is the first one that is not white space
        have hpre : trim s <+: s.dropWhile isSpace := List.rdropWhile_prefix isSpace _
        rw [ht] at hpre
        obtain ⟨t, ht'⟩ := hpre
        have hhead := List.head?_dropWhile_not isSpace s
        rw [← ht', List.cons_append] at hhead
        have hc : isSpace c = false := by simpa using hhead
        rw [List.dropWhile_cons, if_neg (by simp [hc])]
  rw [trim, hdrop]
  exact List.rdropWhile_idempotent isSpace _

/-- A text is its trimmed part with white space around it. -/
theorem exists_append_trim (s : List Char) : ∃ a b, s = a ++ (trim s ++ b) ∧
    (∀ c ∈ a, isSpace c = true) ∧ ∀ c ∈ b, isSpace c = true := by
  refine ⟨s.takeWhile isSpace, ((s.dropWhile isSpace).reverse.takeWhile isSpace).reverse, ?_,
    fun c hc => List.mem_takeWhile_imp hc,
    fun c hc => List.mem_takeWhile_imp (List.mem_reverse.mp hc)⟩
  rw [trim, ← List.reverse_append, List.takeWhile_append_dropWhile, List.reverse_reverse,
    List.takeWhile_append_dropWhile]

theorem trim_cons_of_isSpace {c : Char} (hc : isSpace c = true) (s : List Char) :
    trim (c :: s) = trim s := by
  rw [trim, List.dropWhile_cons_of_pos hc, trim]

theorem trim_concat_of_isSpace {c : Char} (hc : isSpace c = true) (s : List Char) :
    trim (s ++ [c]) = trim s := by
  have hblank : [c].dropWhile isSpace = [] := by
    rw [List.dropWhile_cons_of_pos hc, List.dropWhile_nil]
  rw [trim, trim, List.dropWhile_append, hblank]
  split_ifs with hempty
  · rw [List.isEmpty_iff.mp hempty]
  · rw [List.reverse_append, List.reverse_singleton, List.singleton_append,
      List.dropWhile_cons_of_pos hc]

theorem trim_eq_self {s : List Char} (hhead : ∀ c ∈ s.head?, isSpace c = false)
    (hlast : ∀ c ∈ s.getLast?, isSpace c = false) : trim s = s := by
  have hdrop : s.dropWhile isSpace = s := by
    cases s with
    | nil => rfl
    | cons c rest => rw [List.dropWhile_cons_of_neg (by simp [hhead c rfl])]
  have hrdrop : s.reverse.dropWhile isSpace = s.reverse := by
    rw [← List.head?_reverse] at hlast
    cases hs : s.reverse with
    | nil => rfl
    | cons c rest =>
        rw [hs] at hlast
        rw [List.dropWhile_cons_of_neg (by simp [hlast c rfl])]
  rw [trim, hdrop, hrdrop, List.reverse_reverse]

theorem isSpace_getLast_trim {s : List Char} {c : Char} (h : c ∈ (trim s).getLast?) :
    isSpace c = false := by
  rw [trim, List.getLast?_reverse] at h
  have hnot := List.head?_dropWhile_not isSpace (s.dropWhile isSpace).reverse
  rw [Option.mem_def.mp h] at hnot
  simpa using hnot

/-- A text that neither begins nor ends with white space, with white space after it. -/
theorem trim_append_space {c d sp : Char} (hc : isSpace c = false) (hd : isSpace d = false)
    (hsp : isSpace sp) (s : List Char) :
    trim (c :: (s ++ [d, sp])) = c :: (s ++ [d]) := by
  simp [trim, hc, hd, hsp]

def trimSpace (s : String) : String := String.ofList (trim s.toList)

@[simp] theorem trimSpace_trimSpace (s : String) : trimSpace (trimSpace s) = trimSpace s := by
  simp only [trimSpace, String.toList_ofList, trim_trim]

/-- The text without an ending, if it has it. -/
def trimSuffix (s ending : String) : String :=
  if ending.toList <:+ s.toList then
    String.ofList (s.toList.take (s.toList.length - ending.toList.length))
  else s

@[simp] theorem trimSuffix_append (s ending : String) : trimSuffix (s ++ ending) ending = s := by
  rw [trimSuffix, if_pos (by simp), String.toList_append, List.length_append,
    Nat.add_sub_cancel, List.take_left, String.ofList_toList]

theorem eq_trimSuffix_or (s ending : String) :
    trimSuffix s ending = s ∨ s = trimSuffix s ending ++ ending := by
  by_cases h : ending.toList <:+ s.toList
  · obtain ⟨t, ht⟩ := h
    have happend : s = String.ofList t ++ ending := String.toList_inj.mp (by simp [ht])
    exact .inr (by rw [happend, trimSuffix_append])
  · exact .inl (if_neg h)

/-- A text stays as it is exactly if it does not have the ending. -/
theorem trimSuffix_eq_self_iff {s ending : String} (hending : ending ≠ "") :
    trimSuffix s ending = s ↔ ¬ ending.toList <:+ s.toList := by
  constructor
  · rintro h ⟨t, ht⟩
    have happend : s = String.ofList t ++ ending := String.toList_inj.mp (by simp [ht])
    rw [happend, trimSuffix_append] at h
    have hlength := congrArg (fun u => u.toList.length) h
    simp only [String.toList_append, List.length_append] at hlength
    exact hending (String.toList_inj.mp (List.length_eq_zero_iff.mp (by omega)))
  · intro h
    rw [trimSuffix, if_neg h]

/-- The parts of a text between separators, empty parts included. -/
def split (sep : Char) : List Char → List (List Char)
  | [] => [[]]
  | c :: rest =>
      if c = sep then [] :: split sep rest
      else
        match split sep rest with
        | [] => [[c]]
        | w :: ws => (c :: w) :: ws

theorem split_ne_nil (sep : Char) (s : List Char) : split sep s ≠ [] := by
  cases s with
  | nil => simp [split]
  | cons c rest =>
      rw [split]
      split_ifs
      · simp
      · split <;> simp

theorem split_append_sep (sep : Char) (s t : List Char) :
    split sep (s ++ sep :: t) = split sep s ++ split sep t := by
  induction s with
  | nil => simp [split]
  | cons c rest ih =>
      rw [List.cons_append, split, split, ih]
      split_ifs
      · rfl
      · cases hrest : split sep rest with
        | nil => exact absurd hrest (split_ne_nil sep rest)
        | cons w ws => rfl

theorem split_of_not_mem {sep : Char} {s : List Char} (h : sep ∉ s) : split sep s = [s] := by
  induction s with
  | nil => rfl
  | cons c rest ih =>
      obtain ⟨hc, hrest⟩ : sep ≠ c ∧ sep ∉ rest := by simpa using h
      rw [split, if_neg (Ne.symm hc), ih hrest]

/-- A character at the end of a text goes to its last part. -/
theorem split_concat {sep c : Char} (hc : c ≠ sep) {s w : List Char} {l : List (List Char)}
    (h : split sep s = l ++ [w]) : split sep (s ++ [c]) = l ++ [w ++ [c]] := by
  induction s generalizing l w with
  | nil =>
      obtain ⟨rfl, rfl⟩ : l = [] ∧ w = [] := by
        cases l with
        | nil => simpa [split] using h
        | cons v l => simp [split] at h
      simp [split, hc]
  | cons d rest ih =>
      rw [List.cons_append, split]
      rw [split] at h
      split_ifs at h ⊢ with hd
      · cases l with
        | nil => exact absurd (List.cons.inj h).2 (split_ne_nil sep rest)
        | cons v l =>
            obtain ⟨rfl, hrest⟩ := List.cons.inj h
            rw [ih hrest]
            rfl
      · cases hrest : split sep rest with
        | nil => exact absurd hrest (split_ne_nil sep rest)
        | cons v vs =>
            rw [hrest] at h
            cases l with
            | nil =>
                obtain ⟨rfl, rfl⟩ := List.cons.inj h
                rw [ih (l := []) hrest]
                rfl
            | cons u l =>
                obtain ⟨rfl, rfl⟩ := List.cons.inj h
                rw [ih (l := v :: l) hrest]
                rfl

/-- White space in front of a text does not change its parts but for white space around them. -/
theorem exists_mem_split_cons {sep c : Char} (hc : isSpace c = true) {s w : List Char}
    (hw : w ∈ split sep s) : ∃ w' ∈ split sep (c :: s), trim w' = trim w := by
  rw [split]
  split_ifs with hsep
  · exact ⟨w, List.mem_cons_of_mem _ hw, rfl⟩
  · cases hsplit : split sep s with
    | nil => exact absurd hsplit (split_ne_nil sep s)
    | cons v vs =>
        rw [hsplit] at hw
        rcases List.mem_cons.mp hw with rfl | hw
        · exact ⟨c :: w, List.mem_cons_self, trim_cons_of_isSpace hc w⟩
        · exact ⟨w, List.mem_cons_of_mem _ hw, rfl⟩

/-- The same for white space at the end. -/
theorem exists_mem_split_concat {sep c : Char} (hc : isSpace c = true) {s w : List Char}
    (hw : w ∈ split sep s) : ∃ w' ∈ split sep (s ++ [c]), trim w' = trim w := by
  by_cases hsep : c = sep
  · subst hsep
    rw [split_append_sep]
    exact ⟨w, List.mem_append_left _ hw, rfl⟩
  · have hlast := (List.dropLast_append_getLast (split_ne_nil sep s)).symm
    rw [split_concat hsep hlast]
    rw [hlast] at hw
    rcases List.mem_append.mp hw with hw | hw
    · exact ⟨w, List.mem_append_left _ hw, rfl⟩
    · obtain rfl := List.mem_singleton.mp hw
      exact ⟨_, List.mem_append_right _ List.mem_cons_self, trim_concat_of_isSpace hc _⟩

/-- The parts of a trimmed text are parts of the text, but for white space around them. -/
theorem exists_mem_split_of_trim {sep : Char} {s w : List Char} (hw : w ∈ split sep (trim s)) :
    ∃ w' ∈ split sep s, trim w' = trim w := by
  obtain ⟨a, b, heq, ha, hb⟩ := exists_append_trim s
  have hafter : ∃ w' ∈ split sep (trim s ++ b), trim w' = trim w := by
    clear heq
    induction b using List.reverseRecOn with
    | nil => exact ⟨w, by rwa [List.append_nil], rfl⟩
    | append_singleton b c ih =>
        obtain ⟨w₁, hw₁, htrim⟩ := ih fun d hd => hb d (List.mem_append_left _ hd)
        obtain ⟨w₂, hw₂, htrim'⟩ := exists_mem_split_concat (hb c (by simp)) hw₁
        exact ⟨w₂, by rwa [← List.append_assoc], htrim'.trans htrim⟩
  rw [heq]
  clear heq
  induction a with
  | nil => exact hafter
  | cons c a ih =>
      obtain ⟨w₁, hw₁, htrim⟩ := ih fun d hd => ha d (List.mem_cons_of_mem _ hd)
      obtain ⟨w₂, hw₂, htrim'⟩ := exists_mem_split_cons (ha c List.mem_cons_self) hw₁
      exact ⟨w₂, hw₂, htrim'.trans htrim⟩

/-- Parts that are joined with the separator are found again. -/
theorem split_intercalate {sep : Char} {l : List (List Char)} (hne : l ≠ [])
    (h : ∀ w ∈ l, sep ∉ w) : split sep ([sep].intercalate l) = l := by
  induction l with
  | nil => exact absurd rfl hne
  | cons w l ih =>
      have hw := split_of_not_mem (h w List.mem_cons_self)
      cases l with
      | nil => rw [List.intercalate_singleton, hw]
      | cons v l =>
          rw [List.intercalate_cons_cons, List.append_assoc, List.singleton_append,
            split_append_sep, hw, ih (by simp) fun u hu => h u (List.mem_cons_of_mem _ hu)]
          rfl

/-- The parts of a joined text are the parts of the texts. -/
theorem split_intercalate_flatMap {sep : Char} {l : List (List Char)} (hne : l ≠ []) :
    split sep ([sep].intercalate l) = l.flatMap (split sep) := by
  induction l with
  | nil => exact absurd rfl hne
  | cons w l ih =>
      cases l with
      | nil => simp
      | cons w' l =>
          calc
            split sep ([sep].intercalate (w :: w' :: l))
              = split sep (w ++ sep :: [sep].intercalate (w' :: l)) := by
                rw [List.intercalate_cons_cons, List.append_assoc, List.singleton_append]
            _ = split sep w ++ split sep ([sep].intercalate (w' :: l)) := split_append_sep sep _ _
            _ = (w :: w' :: l).flatMap (split sep) := by
                rw [ih (List.cons_ne_nil _ _), ← List.flatMap_cons]

theorem length_split_eq_one_iff {sep : Char} {s : List Char} :
    (split sep s).length = 1 ↔ sep ∉ s := by
  constructor
  · intro h hmem
    obtain ⟨a, b, rfl, -⟩ := List.eq_append_cons_of_mem hmem
    rw [split_append_sep, List.length_append] at h
    have ha := List.length_pos_iff.mpr (split_ne_nil sep a)
    have hb := List.length_pos_iff.mpr (split_ne_nil sep b)
    omega
  · intro h
    rw [split_of_not_mem h, List.length_singleton]

/-- The characters of a text are separators or stand in one of its parts. -/
theorem mem_split {sep c : Char} {s : List Char} (h : c ∈ s) :
    c = sep ∨ ∃ w ∈ split sep s, c ∈ w := by
  induction s with
  | nil => cases h
  | cons d rest ih =>
      rw [split]
      split_ifs with hd
      · rcases List.mem_cons.mp h with rfl | hrest
        · exact Or.inl hd
        · exact (ih hrest).imp id fun ⟨w, hw, hc⟩ => ⟨w, List.mem_cons_of_mem _ hw, hc⟩
      · cases hsplit : split sep rest with
        | nil => exact absurd hsplit (split_ne_nil sep rest)
        | cons w ws =>
            rw [hsplit] at ih
            rcases List.mem_cons.mp h with rfl | hrest
            · exact Or.inr ⟨c :: w, List.mem_cons_self, List.mem_cons_self⟩
            · refine (ih hrest).imp id fun ⟨v, hv, hc⟩ => ?_
              rcases List.mem_cons.mp hv with rfl | hv
              · exact ⟨d :: v, List.mem_cons_self, List.mem_cons_of_mem _ hc⟩
              · exact ⟨v, List.mem_cons_of_mem _ hv, hc⟩

theorem length_flatten_split (sep : Char) (s : List Char) :
    (split sep s).flatten.length + (split sep s).length = s.length + 1 := by
  induction s with
  | nil => rfl
  | cons c rest ih =>
      rw [split]
      split_ifs
      · simp only [List.flatten_cons, List.nil_append, List.length_cons]
        omega
      · cases hsplit : split sep rest with
        | nil => exact absurd hsplit (split_ne_nil sep rest)
        | cons w ws =>
            rw [hsplit] at ih
            simp only [List.flatten_cons, List.length_append, List.length_cons] at ih ⊢
            omega

/-- A text whose parts are short is short. -/
theorem length_lt_of_split {sep : Char} {s : List Char} {k : Nat}
    (h : ∀ w ∈ split sep s, w.length ≤ k) : s.length < (split sep s).length * (k + 1) := by
  have hflat : ∀ l : List (List Char), (∀ w ∈ l, w.length ≤ k) →
      l.flatten.length ≤ l.length * k := by
    intro l hl
    induction l with
    | nil => simp
    | cons w ws ih =>
        have hw := hl w List.mem_cons_self
        have hws := ih fun v hv => hl v (List.mem_cons_of_mem _ hv)
        simp only [List.flatten_cons, List.length_append, List.length_cons, Nat.add_mul,
          Nat.one_mul]
        omega
  have hlength := length_flatten_split sep s
  have hbound := hflat _ h
  rw [Nat.mul_add, Nat.mul_one]
  omega

/-- The lines of a text. A line ends with a line feed, which a carriage return may
precede; a last line without one counts as well. -/
def lines : List Char → List (List Char)
  | [] => []
  | c :: rest =>
      if c = '\n' then [] :: lines rest
      else if c = '\r' ∧ rest.head? = some '\n' then lines rest
      else
        match lines rest with
        | [] => [[c]]
        | l :: ls => (c :: l) :: ls

theorem lines_append_lf {l : List Char} (hlf : '\n' ∉ l) (hcr : '\r' ∉ l) (rest : List Char) :
    lines (l ++ '\n' :: rest) = l :: lines rest := by
  induction l with
  | nil => rfl
  | cons c l ih =>
      obtain ⟨hc, hl⟩ : '\n' ≠ c ∧ '\n' ∉ l := by simpa using hlf
      obtain ⟨hc', hl'⟩ : '\r' ≠ c ∧ '\r' ∉ l := by simpa using hcr
      rw [List.cons_append, lines, if_neg (Ne.symm hc), if_neg (fun h => hc' h.1.symm), ih hl hl']

/-- A last line without a line feed. -/
theorem lines_of_not_mem {l : List Char} (hne : l ≠ []) (hlf : '\n' ∉ l) : lines l = [l] := by
  induction l with
  | nil => exact absurd rfl hne
  | cons c l ih =>
      obtain ⟨hc, hl⟩ : '\n' ≠ c ∧ '\n' ∉ l := by simpa using hlf
      rw [lines, if_neg (Ne.symm hc), if_neg]
      · cases l with
        | nil => rfl
        | cons d l => rw [ih (by simp) hl]
      · rintro ⟨-, hhead⟩
        exact hl (List.mem_of_head? hhead)

/-- The parts of a text between white space. -/
def fields : List Char → List (List Char)
  | [] => []
  | c :: rest =>
      if isSpace c then fields rest
      else
        match rest.head?.map isSpace, fields rest with
        | some false, w :: ws => (c :: w) :: ws
        | _, ws => [c] :: ws

/-- White space separates the parts before it from those after it. -/
theorem fields_append_space {sp : Char} (hsp : isSpace sp) (s t : List Char) :
    fields (s ++ sp :: t) = fields s ++ fields t := by
  induction s with
  | nil => simp [fields, hsp]
  | cons c s ih =>
      rw [List.cons_append, fields, fields]
      split_ifs
      · exact ih
      · rw [ih]
        cases s with
        | nil => simp [fields, hsp]
        | cons d s =>
            cases hd : isSpace d with
            | true => simp [hd]
            | false =>
                -- the character extends the first part, which stands on both sides
                obtain ⟨w, ws, hw⟩ : ∃ w ws, fields (d :: s) = w :: ws := by
                  rw [fields, if_neg (by simp [hd])]
                  split <;> exact ⟨_, _, rfl⟩
                simp [hd, hw]

theorem fields_of_word {w : List Char} (hne : w ≠ []) (hw : ∀ c ∈ w, isSpace c = false) :
    fields w = [w] := by
  induction w with
  | nil => exact absurd rfl hne
  | cons c w ih =>
      rw [fields, if_neg (by simp [hw c])]
      cases w with
      | nil => rfl
      | cons d w =>
          rw [ih (by simp) fun e he => hw e (List.mem_cons_of_mem _ he)]
          simp [hw d]

/-- The parts between white space have none. -/
theorem isSpace_of_mem_fields {s w : List Char} (h : w ∈ fields s) :
    ∀ c ∈ w, isSpace c = false := by
  induction s generalizing w with
  | nil => cases h
  | cons d s ih =>
      rw [fields] at h
      split_ifs at h with hd
      · exact ih h
      · have hd : isSpace d = false := by simpa using hd
        split at h
        · rename_i v vs _ hrest
          rcases List.mem_cons.mp h with rfl | h
          · have hv := ih (hrest ▸ List.mem_cons_self)
            simpa [hd] using hv
          · exact ih (hrest ▸ List.mem_cons_of_mem _ h)
        · rcases List.mem_cons.mp h with rfl | h
          · simpa using hd
          · exact ih h

/-- The parts of a text between separators, without empty ones. -/
def wordsBy (sep : Char → Bool) (s : List Char) : List (List Char) :=
  (s.splitOnP sep).filter (· ≠ [])

theorem wordsBy_append_sep {sep : Char → Bool} {c : Char} (hc : sep c) (s t : List Char) :
    wordsBy sep (s ++ c :: t) = wordsBy sep s ++ wordsBy sep t := by
  rw [wordsBy, List.splitOnP_append_cons s t hc, List.filter_append, ← wordsBy, ← wordsBy]

/-- The words of texts that are joined with a separator are those of the single texts. -/
theorem wordsBy_intercalate {sep : Char → Bool} {c : Char} (hc : sep c) (l : List (List Char)) :
    wordsBy sep ([c].intercalate l) = l.flatMap (wordsBy sep) := by
  induction l with
  | nil => simp [wordsBy]
  | cons s l ih =>
      cases l with
      | nil => simp
      | cons t l =>
          calc
            wordsBy sep ([c].intercalate (s :: t :: l))
              = wordsBy sep (s ++ c :: [c].intercalate (t :: l)) := by
                rw [List.intercalate_cons_cons, List.append_assoc, List.singleton_append]
            _ = wordsBy sep s ++ wordsBy sep ([c].intercalate (t :: l)) :=
                wordsBy_append_sep hc _ _
            _ = (s :: t :: l).flatMap (wordsBy sep) := by rw [ih, ← List.flatMap_cons]

/-- The text before the first occurrence of a character, or all of it. -/
def before (c : Char) (s : List Char) : List Char := s.takeWhile (· ≠ c)

theorem before_of_not_mem {c : Char} {s : List Char} (h : c ∉ s) : before c s = s := by
  rw [before, List.takeWhile_eq_self_iff]
  intro d hd
  exact decide_eq_true fun heq => h (heq ▸ hd)

theorem before_append {c : Char} {s : List Char} (h : c ∉ s) (t : List Char) :
    before c (s ++ c :: t) = s := by
  have hs : ∀ d ∈ s, decide (d ≠ c) = true := fun d hd => decide_eq_true fun heq => h (heq ▸ hd)
  rw [before, List.takeWhile_append_of_pos hs, List.takeWhile_cons, if_neg (by simp),
    List.append_nil]

/-- A text is what stands before a character, this character, and the rest. -/
theorem eq_before_append {c : Char} {s : List Char} (h : c ∈ s) :
    s = before c s ++ c :: s.drop ((before c s).length + 1) := by
  induction s with
  | nil => cases h
  | cons d s ih =>
      rw [before, List.takeWhile_cons]
      by_cases hd : d = c
      · simp [hd]
      · obtain hs : c ∈ s := (List.mem_cons.mp h).resolve_left (Ne.symm hd)
        rw [if_pos (decide_eq_true hd), List.cons_append, List.length_cons, List.drop_succ_cons]
        exact congrArg (d :: ·) (ih hs)

example : lines "a\r\n\nb\r".toList = [['a'], [], ['b', '\r']] := by decide

example : fields " ab  c\t".toList = [['a', 'b'], ['c']] := by decide

end PmxAgents.Lib.Text

/-! ## The codes of letters and digits -/

namespace PmxAgents.Lib.Ascii

theorem toNat_of_isAlpha {c : Char} (h : c.isAlpha) :
    65 ≤ c.toNat ∧ c.toNat ≤ 90 ∨ 97 ≤ c.toNat ∧ c.toNat ≤ 122 := by
  rcases (Bool.or_eq_true _ _).mp h with hupper | hlower
  · obtain ⟨hlow, hhigh⟩ : c.val ≥ 'A'.val ∧ c.val ≤ 'Z'.val := of_decide_eq_true hupper
    exact Or.inl ⟨UInt32.le_iff_toNat_le.mp hlow, UInt32.le_iff_toNat_le.mp hhigh⟩
  · obtain ⟨hlow, hhigh⟩ := (Bool.and_eq_true _ _).mp hlower
    exact Or.inr ⟨UInt32.le_iff_toNat_le.mp (of_decide_eq_true hlow),
      UInt32.le_iff_toNat_le.mp (of_decide_eq_true hhigh)⟩

theorem toNat_of_isDigit {c : Char} (h : c.isDigit) : 48 ≤ c.toNat ∧ c.toNat ≤ 57 :=
  Char.isDigit_iff_toNat.mp h

end PmxAgents.Lib.Ascii

/-!
## Texts without case

Lower case and comparison without case, as Go's `strings` package has them, for comparison with
ASCII texts. Two letters outside of ASCII have an ASCII letter as their lower case, and two
fold to one. Every other character outside of ASCII is mapped to one outside of ASCII; which one
makes no difference here.
-/

namespace PmxAgents.Lib.Casing

def lower (c : Char) : Char :=
  if c = 'İ' then 'i' else if c = 'K' then 'k' else c.toLower

def toLower (s : String) : String := String.ofList (s.toList.map lower)

def fold (c : Char) : Char :=
  if c = 'ſ' then 's' else if c = 'K' then 'k' else c.toLower

def equalFold (s t : String) : Bool := s.toList.map fold == t.toList.map fold

end PmxAgents.Lib.Casing

namespace PmxAgents.Lib.Numeral

/-- The number of a text of digits after an optional sign. -/
def signed (s : List Char) : Option ℤ :=
  let (negative, digits) : Bool × List Char :=
    match s with
    | '-' :: rest => (true, rest)
    | '+' :: rest => (false, rest)
    | _ => (false, s)
  if digits ≠ [] ∧ digits.all Char.isDigit then
    let n : ℤ := Nat.ofDigitChars 10 digits 0
    some (if negative then -n else n)
  else none

end PmxAgents.Lib.Numeral

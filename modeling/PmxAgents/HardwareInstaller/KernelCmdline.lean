import PmxAgents.Lib.Missing
import PmxAgents.Lib.Scanner
import PmxAgents.Lib.Words

/-!
# The kernel command line in the boot defaults

Two packages add tokens to the line of the boot defaults that holds the command line of the
kernel. Each has its own routine that takes the quotes off. They differ on a value that is one
quote alone: one of them takes it for a quoted text and slices beyond its end.

## Implementation notes

A line is a list of characters. The lengths that are compared are those in bytes, and a quote is
one byte, so that the first and the last byte are quotes exactly if the characters are.
-/

namespace PmxAgents.HardwareInstaller

open Lib Lib.Text

/-- How a line is merged: with a line and whether it changed, with an error, or not at all. -/
inductive Merge (ε : Type) where
  | returned (line : List Char) (changed : Bool)
  | refused (e : ε)
  | panicked
  deriving DecidableEq, Repr

def cmdlineKey : List Char := "GRUB_CMDLINE_LINUX_DEFAULT=".toList

def quoted (quote : Char) (tokens : List String) : List Char :=
  cmdlineKey ++ quote :: ((" ".intercalate tokens).toList ++ [quote])

/-- What both routines do with the text between the quotes. -/
def mergeTokens {ε : Type} (line raw : List Char) (quote : Char) (required : List String) :
    Merge ε :=
  let merged := Missing.add (words (String.ofList raw)) required
  if merged.2 = false then .returned line false else .returned (quoted quote merged.1) true

/-- The value is between two of these quotes, or is one of them. -/
def isBetween (quote : Char) (value : List Char) : Bool :=
  value.head? = some quote && value.getLast? = some quote

namespace Iommu

inductive MergeError where
  | unsupportedFormat (line : List Char)
  deriving DecidableEq, Repr

def mergeKernelCmdline (line : List Char) (required : List String) : Merge MergeError :=
  if ¬ cmdlineKey <+: line then .returned line false
  else
    let value := line.drop cmdlineKey.length
    let quote := if isBetween '\'' value then '\'' else '"'
    if isBetween '"' value = false ∧ isBetween '\'' value = false then
      .refused (.unsupportedFormat line)
    -- the slice from the second byte to the last one needs two bytes
    else if Scanner.bytes Scanner.utf8Lines value < 2 then .panicked
    else mergeTokens line (value.drop 1).dropLast quote required

end Iommu

namespace Sriov

inductive MergeError where
  | invalidFormat
  | unsupportedQuote
  | unbalancedQuote
  deriving DecidableEq, Repr

def mergeKernelCmdline (line : List Char) (required : List String) : Merge MergeError :=
  if ¬ cmdlineKey <+: line then .returned line false
  else
    let raw := line.drop cmdlineKey.length
    if Scanner.bytes Scanner.utf8Lines raw < 2 then .refused .invalidFormat
    else
      match raw.head? with
      | none => .refused .invalidFormat
      | some quote =>
          if quote ≠ '"' ∧ quote ≠ '\'' then .refused .unsupportedQuote
          else if raw.getLast? ≠ some quote then .refused .unbalancedQuote
          else mergeTokens line (raw.drop 1).dropLast quote required

end Sriov

/-! ## What merging is for -/

/-- Both refuse, or both return the same. -/
def Merge.Agrees {ε ε' : Type} : Merge ε → Merge ε' → Prop
  | .refused _, .refused _ => True
  | .returned line changed, .returned line' changed' => line = line' ∧ changed = changed'
  | _, _ => False

/-- The tokens between the quotes. -/
def tokensOf (line : List Char) : List String :=
  words (String.ofList ((line.drop (cmdlineKey.length + 1)).dropLast))

/-- The tokens stay in their order, and behind them stand the required ones that were missing,
each of them once. -/
def Extends (required before after : List String) : Prop :=
  ∃ missing, after = before ++ missing ∧ missing.Nodup ∧
    ∀ token, token ∈ missing ↔ token ∈ required ∧ token ∉ before

/-- The routines agree. A line of the command line that they accept is extended, another one is
returned as it is, and merging again changes nothing. -/
structure MergesWell (line : List Char) (required : List String) : Prop where
  agrees : (Iommu.mergeKernelCmdline line required).Agrees (Sriov.mergeKernelCmdline line required)
  result : ∀ result changed, Iommu.mergeKernelCmdline line required = .returned result changed →
    (cmdlineKey <+: line → Extends required (tokensOf line) (tokensOf result)) ∧
    (¬ cmdlineKey <+: line → result = line) ∧
    Iommu.mergeKernelCmdline result required = .returned result false ∧
    Sriov.mergeKernelCmdline result required = .returned result false

/-- The value has two quotes of one kind around it. -/
def Quoted (value : List Char) : Prop :=
  ∃ quote inner, (quote = '"' ∨ quote = '\'') ∧ value = quote :: (inner ++ [quote])

/-- One quote alone. -/
def LoneQuote (value : List Char) : Prop := value = ['"'] ∨ value = ['\'']

/-! ## The tokens -/

section Tokens
variable {ε : Type} {required tokens : List String} {quote : Char} {inner line : List Char}

theorem tokensOf_between (quote : Char) (inner : List Char) :
    tokensOf (cmdlineKey ++ quote :: (inner ++ [quote])) = words (String.ofList inner) := by
  have hdrop : (cmdlineKey ++ quote :: (inner ++ [quote])).drop (cmdlineKey.length + 1) =
      inner ++ [quote] := by
    rw [← List.drop_drop, List.drop_left, List.drop_one, List.tail_cons]
  rw [tokensOf, hdrop, List.dropLast_concat]

/-- Tokens that are words are found again between the quotes. -/
theorem tokensOf_quoted (h : ∀ token ∈ tokens, Word token) :
    tokensOf (quoted quote tokens) = tokens := by
  rw [quoted, tokensOf_between, String.ofList_toList, words_intercalate_of_word h]

theorem mergeTokens_eq_line (h : ∀ token ∈ required, token ∈ words (String.ofList inner)) :
    (mergeTokens line inner quote required : Merge ε) = .returned line false := by
  rw [mergeTokens]
  exact if_pos (Missing.add_eq_false_iff.mpr h)

theorem mergeTokens_eq_quoted (h : ¬ ∀ token ∈ required, token ∈ words (String.ofList inner)) :
    (mergeTokens line inner quote required : Merge ε) =
      .returned (quoted quote (Missing.add (words (String.ofList inner)) required).1) true := by
  rw [mergeTokens]
  exact if_neg (mt Missing.add_eq_false_iff.mp h)

end Tokens

/-! ## The quotes -/

section Quotes
variable {required : List String} {quote : Char} {inner line value : List Char}

theorem bytes_between (quote : Char) (inner : List Char) :
    ¬ Scanner.bytes Scanner.utf8Lines (quote :: (inner ++ [quote])) < 2 := by
  have hquote : 0 < quote.utf8Size := Char.utf8Size_pos quote
  simp only [Scanner.bytes, Scanner.utf8Lines, List.map_cons, List.map_append, List.map_nil,
    List.sum_cons, List.sum_append, List.sum_nil]
  omega

theorem isBetween_iff : isBetween quote value = true ↔
    value = [quote] ∨ ∃ inner, value = quote :: (inner ++ [quote]) := by
  rw [isBetween, Bool.and_eq_true, decide_eq_true_eq, decide_eq_true_eq]
  constructor
  · rintro ⟨hhead, hlast⟩
    cases value with
    | nil => cases hhead
    | cons c rest =>
        obtain rfl : c = quote := Option.some.inj hhead
        rcases List.eq_nil_or_concat rest with rfl | ⟨inner, d, rfl⟩
        · exact .inl rfl
        · refine .inr ⟨inner, ?_⟩
          rw [List.concat_eq_append, ← List.cons_append, List.getLast?_concat] at hlast
          rw [List.concat_eq_append, Option.some.inj hlast]
  · rintro (rfl | ⟨inner, rfl⟩)
    · exact ⟨rfl, rfl⟩
    · refine ⟨rfl, ?_⟩
      rw [← List.cons_append, List.getLast?_concat]

theorem iommu_of_not_key (h : ¬ cmdlineKey <+: line) :
    Iommu.mergeKernelCmdline line required = .returned line false := if_pos h

theorem sriov_of_not_key (h : ¬ cmdlineKey <+: line) :
    Sriov.mergeKernelCmdline line required = .returned line false := if_pos h

/-- The value is what stands behind the key. -/
theorem exists_value (h : cmdlineKey <+: line) : ∃ value, line = cmdlineKey ++ value :=
  let ⟨value, hvalue⟩ := h
  ⟨value, hvalue.symm⟩

theorem not_not_key (value : List Char) : ¬ ¬ cmdlineKey <+: cmdlineKey ++ value :=
  not_not.mpr (List.prefix_append _ _)

theorem isBetween_of_head {quote' : Char} (h : quote ≠ quote') (rest : List Char) :
    isBetween quote' (quote :: rest) = false := by
  rw [isBetween, List.head?_cons, decide_eq_false (by simpa using h), Bool.false_and]

theorem drop_between (quote : Char) (inner : List Char) :
    ((quote :: (inner ++ [quote])).drop 1).dropLast = inner := by
  rw [List.drop_one, List.tail_cons, List.dropLast_concat]

theorem iommu_between (hquote : quote = '"' ∨ quote = '\'') :
    Iommu.mergeKernelCmdline (cmdlineKey ++ quote :: (inner ++ [quote])) required =
      mergeTokens (cmdlineKey ++ quote :: (inner ++ [quote])) inner quote required := by
  have hself : isBetween quote (quote :: (inner ++ [quote])) = true :=
    isBetween_iff.mpr (.inr ⟨inner, rfl⟩)
  rw [Iommu.mergeKernelCmdline, if_neg (not_not_key _)]
  simp only [List.drop_left, if_neg (bytes_between quote inner), drop_between]
  rcases hquote with rfl | rfl
  · rw [hself, isBetween_of_head (by decide)]
    rfl
  · rw [hself, isBetween_of_head (by decide)]
    rfl

theorem sriov_between (hquote : quote = '"' ∨ quote = '\'') :
    Sriov.mergeKernelCmdline (cmdlineKey ++ quote :: (inner ++ [quote])) required =
      mergeTokens (cmdlineKey ++ quote :: (inner ++ [quote])) inner quote required := by
  have hlast : (quote :: (inner ++ [quote])).getLast? = some quote := by
    rw [← List.cons_append, List.getLast?_concat]
  have hknown : ¬ (quote ≠ '"' ∧ quote ≠ '\'') := by
    rintro ⟨hdouble, hsingle⟩
    exact hquote.elim hdouble hsingle
  rw [Sriov.mergeKernelCmdline, if_neg (not_not_key _)]
  simp only [List.drop_left, if_neg (bytes_between quote inner), drop_between, List.head?_cons,
    if_neg hknown, hlast, ne_eq, not_true_eq_false, if_false]

theorem iommu_lone (h : LoneQuote value) :
    Iommu.mergeKernelCmdline (cmdlineKey ++ value) required = .panicked := by
  rw [Iommu.mergeKernelCmdline, if_neg (not_not_key _)]
  simp only [List.drop_left]
  rcases h with rfl | rfl <;> rfl

/-- A value that is not quoted is refused by both, unless it is one quote alone. -/
theorem refused_of_not_quoted (hquoted : ¬ Quoted value) (hlone : ¬ LoneQuote value) :
    (∃ e, Iommu.mergeKernelCmdline (cmdlineKey ++ value) required = .refused e) ∧
      ∃ e, Sriov.mergeKernelCmdline (cmdlineKey ++ value) required = .refused e := by
  have hnot : ∀ quote, quote = '"' ∨ quote = '\'' → isBetween quote value = false := by
    intro quote hquote
    rw [Bool.eq_false_iff, ne_eq, isBetween_iff]
    rintro (rfl | ⟨inner, rfl⟩)
    · refine hlone (hquote.imp ?_ ?_)
      · rintro rfl; rfl
      · rintro rfl; rfl
    · exact hquoted ⟨quote, inner, hquote, rfl⟩
  have hdouble := hnot '"' (.inl rfl)
  have hsingle := hnot '\'' (.inr rfl)
  refine ⟨⟨.unsupportedFormat (cmdlineKey ++ value), ?_⟩, ?_⟩
  · rw [Iommu.mergeKernelCmdline, if_neg (not_not_key _)]
    simp only [List.drop_left, hdouble, hsingle, and_self, if_true]
  · rw [Sriov.mergeKernelCmdline, if_neg (not_not_key _)]
    simp only [List.drop_left]
    split_ifs with hbytes
    · exact ⟨_, rfl⟩
    · cases hhead : value.head? with
      | none => exact ⟨_, rfl⟩
      | some quote =>
          simp only
          split_ifs with hquote hlast
          · exact ⟨_, rfl⟩
          · exact ⟨_, rfl⟩
          · -- the first and the last character are one quote, so the value is quoted
            have hknown : quote = '"' ∨ quote = '\'' := by
              rwa [ne_eq, ne_eq, ← not_or, not_not] at hquote
            have hbetween : isBetween quote value = true := by
              rw [isBetween, hhead, not_not.mp hlast]
              simp
            rw [hnot quote hknown] at hbetween
            cases hbetween

theorem sriov_lone (h : LoneQuote value) :
    Sriov.mergeKernelCmdline (cmdlineKey ++ value) required = .refused .invalidFormat := by
  rw [Sriov.mergeKernelCmdline, if_neg (not_not_key _)]
  simp only [List.drop_left]
  rcases h with rfl | rfl <;> rfl

/-- A line with the key is accepted by one of them only if its value is quoted. -/
theorem exists_between {next : List Char} {changed : Bool} (hkey : cmdlineKey <+: line)
    (h : Iommu.mergeKernelCmdline line required = .returned next changed ∨
      Sriov.mergeKernelCmdline line required = .returned next changed) :
    ∃ quote inner, (quote = '"' ∨ quote = '\'') ∧
      line = cmdlineKey ++ quote :: (inner ++ [quote]) := by
  obtain ⟨value, rfl⟩ := exists_value hkey
  by_cases hquoted : Quoted value
  · obtain ⟨quote, inner, hquote, rfl⟩ := hquoted
    exact ⟨quote, inner, hquote, rfl⟩
  · by_cases hlone : LoneQuote value
    · rw [iommu_lone hlone, sriov_lone hlone] at h
      rcases h with h | h <;> cases h
    · obtain ⟨⟨e, he⟩, e', he'⟩ := @refused_of_not_quoted required value hquoted hlone
      rw [he, he'] at h
      rcases h with h | h <;> cases h

end Quotes

/-! ## Merging well -/

section Well
variable {required : List String} {quote : Char} {inner line value : List Char}

theorem agrees_mergeTokens (line inner : List Char) (quote : Char) (required : List String) :
    (mergeTokens line inner quote required : Merge Iommu.MergeError).Agrees
      (mergeTokens line inner quote required : Merge Sriov.MergeError) := by
  by_cases h : ∀ token ∈ required, token ∈ words (String.ofList inner)
  · rw [mergeTokens_eq_line h, mergeTokens_eq_line h]
    exact ⟨rfl, rfl⟩
  · rw [mergeTokens_eq_quoted h, mergeTokens_eq_quoted h]
    exact ⟨rfl, rfl⟩

theorem mergesWell_of_not_key (h : ¬ cmdlineKey <+: line) : MergesWell line required where
  agrees := by
    rw [iommu_of_not_key h, sriov_of_not_key h]
    exact ⟨rfl, rfl⟩
  result := by
    intro result changed hresult
    rw [iommu_of_not_key h] at hresult
    obtain ⟨rfl, -⟩ := Merge.returned.inj hresult
    exact ⟨fun hkey => absurd hkey h, fun _ => rfl, iommu_of_not_key h, sriov_of_not_key h⟩

/-- A line whose tokens are all that is required stays as it is. -/
theorem merge_eq_self (hquote : quote = '"' ∨ quote = '\'')
    (h : ∀ token ∈ required, token ∈ words (String.ofList inner)) :
    Iommu.mergeKernelCmdline (cmdlineKey ++ quote :: (inner ++ [quote])) required =
        .returned (cmdlineKey ++ quote :: (inner ++ [quote])) false ∧
      Sriov.mergeKernelCmdline (cmdlineKey ++ quote :: (inner ++ [quote])) required =
        .returned (cmdlineKey ++ quote :: (inner ++ [quote])) false := by
  rw [iommu_between hquote, sriov_between hquote]
  exact ⟨mergeTokens_eq_line h, mergeTokens_eq_line h⟩

/-- With tokens that are words, a quoted line is merged well. -/
theorem mergesWell_of_word (hquote : quote = '"' ∨ quote = '\'')
    (hword : ∀ token ∈ required, Word token) :
    MergesWell (cmdlineKey ++ quote :: (inner ++ [quote])) required where
  agrees := by
    rw [iommu_between hquote, sriov_between hquote]
    exact agrees_mergeTokens _ _ _ _
  result := by
    intro result changed hresult
    rw [iommu_between hquote] at hresult
    have hkey : cmdlineKey <+: cmdlineKey ++ quote :: (inner ++ [quote]) := List.prefix_append _ _
    obtain ⟨missing, heq, hnodup, hmissing, -⟩ :=
      Missing.add_spec (words (String.ofList inner)) required
    by_cases hall : ∀ token ∈ required, token ∈ words (String.ofList inner)
    · rw [mergeTokens_eq_line hall] at hresult
      obtain ⟨rfl, -⟩ := Merge.returned.inj hresult
      refine ⟨fun _ => ⟨[], (List.append_nil _).symm, List.nodup_nil, fun token => ?_⟩,
        fun h => absurd hkey h, merge_eq_self hquote hall⟩
      rw [tokensOf_between]
      exact iff_of_false List.not_mem_nil fun h => h.2 (hall token h.1)
    · rw [mergeTokens_eq_quoted hall] at hresult
      obtain ⟨rfl, -⟩ := Merge.returned.inj hresult
      have hwords : ∀ token ∈ (Missing.add (words (String.ofList inner)) required).1,
          Word token := by
        rw [heq]
        intro token htoken
        rcases List.mem_append.mp htoken with h | h
        · exact word_of_mem_words h
        · exact hword token ((hmissing token).mp h).1
      refine ⟨fun _ => ⟨missing, ?_, hnodup, fun token => ?_⟩, fun h => absurd hkey h, ?_⟩
      · rw [tokensOf_quoted hwords, tokensOf_between, heq]
      · rw [tokensOf_between]
        exact hmissing token
      · refine merge_eq_self hquote fun token htoken => ?_
        rw [String.ofList_toList, words_intercalate_of_word hwords, heq, List.mem_append, hmissing]
        by_cases hmem : token ∈ words (String.ofList inner)
        · exact .inl hmem
        · exact .inr ⟨htoken, hmem⟩

/-- A required token that is not a word is never found, so that merging again changes the line. -/
theorem word_of_mergesWell (hquote : quote = '"' ∨ quote = '\'')
    (h : MergesWell (cmdlineKey ++ quote :: (inner ++ [quote])) required) :
    ∀ token ∈ required, Word token := by
  intro token htoken
  by_contra hword
  have hnever : ∀ s, ¬ ∀ t ∈ required, t ∈ words s :=
    fun s hall => hword (word_of_mem_words (hall token htoken))
  have hfirst : Iommu.mergeKernelCmdline (cmdlineKey ++ quote :: (inner ++ [quote])) required =
      .returned (quoted quote (Missing.add (words (String.ofList inner)) required).1) true :=
    (iommu_between hquote).trans (mergeTokens_eq_quoted (hnever _))
  have hagain := (h.result _ _ hfirst).2.2.1
  rw [quoted, iommu_between hquote, mergeTokens_eq_quoted (hnever _)] at hagain
  cases (Merge.returned.inj hagain).2

/-- The routines merge well exactly if the value is not one quote alone and, where it is quoted,
the required tokens are words. -/
theorem mergesWell_iff (line : List Char) (required : List String) :
    MergesWell line required ↔ ∀ value, line = cmdlineKey ++ value →
      ¬ LoneQuote value ∧ (Quoted value → ∀ token ∈ required, Word token) := by
  constructor
  · rintro h value rfl
    constructor
    · intro hlone
      have hagrees := h.agrees
      rw [iommu_lone hlone] at hagrees
      exact hagrees
    · rintro ⟨quote, inner, hquote, rfl⟩
      exact word_of_mergesWell hquote h
  · intro h
    by_cases hkey : cmdlineKey <+: line
    · obtain ⟨value, rfl⟩ := exists_value hkey
      obtain ⟨hlone, hwords⟩ := h value rfl
      by_cases hquoted : Quoted value
      · obtain ⟨quote, inner, hquote, rfl⟩ := hquoted
        exact mergesWell_of_word hquote (hwords ⟨quote, inner, hquote, rfl⟩)
      · obtain ⟨⟨e, hiommu⟩, e', hsriov⟩ := @refused_of_not_quoted required value hquoted hlone
        refine ⟨by rw [hiommu, hsriov]; trivial, fun result changed hresult => ?_⟩
        rw [hiommu] at hresult
        cases hresult
    · exact mergesWell_of_not_key hkey

end Well

/-- A line that ends with the quote that opens its value. -/
def openLine : List Char := cmdlineKey ++ ['"']

/-- One routine panics where the other one refuses. -/
theorem openLine_not_merged :
    Iommu.mergeKernelCmdline openLine ["iommu=pt"] = .panicked ∧
      Sriov.mergeKernelCmdline openLine ["iommu=pt"] = .refused .invalidFormat ∧
      ¬ MergesWell openLine ["iommu=pt"] := by
  have hiommu : Iommu.mergeKernelCmdline openLine ["iommu=pt"] = .panicked :=
    iommu_lone (.inl rfl)
  refine ⟨hiommu, by decide, fun h => ?_⟩
  have hagrees := h.agrees
  rw [hiommu] at hagrees
  exact hagrees

end PmxAgents.HardwareInstaller

import Mathlib.Data.List.Basic

/-!
# Permuting option parsing

The words of a command line are read as the C library reads them when it may permute them:
a word that begins with a dash is an option wherever it stands, up to a double dash, and the
other words are the operands. A short option may be one of several in a word, and an option
with an argument takes the rest of its word or the next one. A long option may be
abbreviated as long as that is unambiguous.

An option is consumed. So the operands are all words exactly if none is an option.
-/

namespace PmxAgents.Lib.Getopt

/-- The options of a command; each has a meaning and takes an argument or does not. -/
structure Table (F : Type*) where
  short : List (Char × F × Bool)
  long : List (String × F × Bool)

/-- The options of a command line with their arguments, and its other words. -/
structure Parsed (F : Type*) where
  flags : List (F × Option String)
  operands : List String
  deriving DecidableEq

/-- A word that is not an operand: it begins with a dash and is not only a dash. -/
def isOption (word : String) : Bool := word.toList.head? = some '-' && word ≠ "-"

section Parsing
variable {F : Type*} [DecidableEq F]

/-- The flags of a word of short options, and the one that waits for the next word. -/
def cluster (t : Table F) : List Char → Option (List (F × Option String) × Option F)
  | [] => some ([], none)
  | c :: rest =>
      match t.short.lookup c with
      | none => none
      | some (f, false) => (cluster t rest).map fun r => ((f, none) :: r.1, r.2)
      | some (f, true) =>
          if rest = [] then some ([], some f) else some ([(f, some (String.ofList rest))], none)

/-- The option that a name stands for, in full or abbreviated. -/
def longOption (t : Table F) (name : List Char) : Option (F × Bool) :=
  match t.long.find? fun entry => entry.1.toList = name with
  | some entry => some entry.2
  | none =>
      match (t.long.filter fun entry => name.isPrefixOf entry.1.toList).map Prod.snd with
      | [] => none
      | first :: others => if others.all (· = first) then some first else none

/-- The flag of a long option, with the argument after an equals sign if there is one. -/
def longFlag (t : Table F) (body : List Char) : Option (List (F × Option String) × Option F) :=
  let name := body.takeWhile (· ≠ '=')
  match longOption t name with
  | none => none
  | some (f, takes) =>
      if '=' ∈ body then
        if takes then some ([(f, some (String.ofList (body.drop (name.length + 1))))], none)
        else none
      else if takes then some ([], some f)
      else some ([(f, none)], none)

/-- The flags of a word that is an option. -/
def wordFlags (t : Table F) (word : String) : Option (List (F × Option String) × Option F) :=
  match word.toList with
  | '-' :: '-' :: body => longFlag t body
  | _ :: body => cluster t body
  | [] => none

/-- Read the words; the option waits for its argument. -/
def parse (t : Table F) : Option F → List String → Option (Parsed F)
  | none, [] => some ⟨[], []⟩
  | some _, [] => none
  | some f, word :: rest =>
      (parse t none rest).map fun r => ⟨(f, some word) :: r.flags, r.operands⟩
  | none, word :: rest =>
      if word = "--" then some ⟨[], rest⟩
      else if isOption word then
        match wordFlags t word with
        | none => none
        | some (flags, waiting) =>
            (parse t waiting rest).map fun r => ⟨flags ++ r.flags, r.operands⟩
      else (parse t none rest).map fun r => ⟨r.flags, word :: r.operands⟩

variable {t : Table F} {waiting : Option F} {words : List String} {r : Parsed F}

theorem length_operands_le (h : parse t waiting words = some r) :
    r.operands.length ≤ words.length := by
  fun_induction parse t waiting words generalizing r with
  | case1 =>
      obtain rfl := Option.some.inj h
      exact Nat.le_refl _
  | case2 | case5 => cases h
  | case3 f word rest ih | case6 word rest hend hoption flags f hflags ih =>
      obtain ⟨r', hr', rfl⟩ := Option.map_eq_some_iff.mp h
      have hle := ih hr'
      exact Nat.le_succ_of_le hle
  | case4 rest =>
      rw [← Option.some.inj h]
      exact Nat.le_succ _
  | case7 word rest hend hoption ih =>
      obtain ⟨r', hr', rfl⟩ := Option.map_eq_some_iff.mp h
      exact Nat.succ_le_succ (ih hr')

/-- Without options, the words are the operands. -/
theorem parse_of_operands (h : ∀ word ∈ words, isOption word = false) :
    parse t none words = some ⟨[], words⟩ := by
  induction words with
  | nil => rfl
  | cons word rest ih =>
      have hword : isOption word = false := h word List.mem_cons_self
      have hend : word ≠ "--" := by
        rintro rfl
        cases hword
      rw [parse, if_neg hend, if_neg (by simp [hword]),
        ih fun w hw => h w (List.mem_cons_of_mem _ hw), Option.map_some]

/-- If all words are operands, none of them is an option. -/
theorem operands_of_parse (h : parse t none words = some r) (hall : r.operands = words) :
    ∀ word ∈ words, isOption word = false := by
  induction words generalizing r with
  | nil => exact nofun
  | cons word rest ih =>
      rw [parse] at h
      have hlength : r.operands.length = rest.length + 1 := by rw [hall, List.length_cons]
      split_ifs at h with hend hoption
      · -- the double dash is consumed
        rw [← Option.some.inj h] at hlength
        exact absurd hlength (by simp)
      · -- an option is consumed
        cases hflags : wordFlags t word with
        | none => simp only [hflags] at h; cases h
        | some found =>
            simp only [hflags] at h
            obtain ⟨r', hr', rfl⟩ := Option.map_eq_some_iff.mp h
            have hle := length_operands_le hr'
            simp only at hlength
            omega
      · obtain ⟨r', hr', rfl⟩ := Option.map_eq_some_iff.mp h
        intro w hw
        rcases List.mem_cons.mp hw with rfl | hw
        · exact Bool.eq_false_iff.mpr hoption
        · exact ih hr' (List.cons.inj hall).2 w hw

end Parsing

end PmxAgents.Lib.Getopt

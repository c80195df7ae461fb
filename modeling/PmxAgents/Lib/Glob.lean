import Mathlib.Data.List.Infix
import Mathlib.Data.Nat.Notation

/-!
# File name patterns

The patterns that a listing of files is asked for with: a star for any text, a
question mark for one character, classes of characters in brackets, and a backslash
in front of a character that stands for itself. A path is matched component by
component. A pattern that is not well formed is an error.
-/

namespace PmxAgents.Lib.Glob

inductive Term where
  | star
  | any
  | lit (c : Char)
  | oneOf (negated : Bool) (ranges : List (Char × Char))

/-- One character of a class, escaped or not. More of the pattern has to follow it. -/
def getEsc : List Char → Option (Char × List Char)
  | '\\' :: c :: d :: rest => some (c, d :: rest)
  | c :: d :: rest => if c = '-' ∨ c = ']' ∨ c = '\\' then none else some (c, d :: rest)
  | _ => none

/-- The end of a range: without a dash it is the character that begins it. -/
def rangeEnd (lo : Char) : List Char → Option (Char × List Char)
  | '-' :: rest => getEsc rest
  | rest => some (lo, rest)

/-- The ranges of a class, at least one, up to the closing bracket. -/
def ranges : ℕ → List Char → Option (List (Char × Char) × List Char)
  | 0, _ => none
  | fuel + 1, s => do
      let (lo, s) ← getEsc s
      let (hi, s) ← rangeEnd lo s
      match s with
      | ']' :: rest => some ([(lo, hi)], rest)
      | _ =>
          let (more, rest) ← ranges fuel s
          some ((lo, hi) :: more, rest)

def afterCaret (s : List Char) : List Char := if s.head? = some '^' then s.drop 1 else s

/-- The terms of a pattern. Every term takes at least one character, so that the length of the
pattern is enough fuel. -/
def terms : ℕ → List Char → Option (List Term)
  | _, [] => some []
  | 0, _ :: _ => none
  | fuel + 1, c :: s =>
      if c = '*' then (terms fuel s).map (.star :: ·)
      else if c = '?' then (terms fuel s).map (.any :: ·)
      else if c = '[' then do
        let (rs, rest) ← ranges s.length (afterCaret s)
        (terms fuel rest).map (.oneOf (s.head? = some '^') rs :: ·)
      else if c = '\\' then
        match s with
        | [] => none
        | d :: rest => (terms fuel rest).map (.lit d :: ·)
      else (terms fuel s).map (.lit c :: ·)

def compile (pattern : String) : Option (List Term) :=
  terms pattern.toList.length pattern.toList

/-- The terms match the whole text. -/
def Matches : List Term → List Char → Bool
  | [], s => s.isEmpty
  | .star :: ts, s => s.tails.any (Matches ts)
  | .any :: ts, s =>
      match s with
      | [] => false
      | _ :: rest => Matches ts rest
  | .lit c :: ts, s =>
      match s with
      | [] => false
      | d :: rest => d = c && Matches ts rest
  | .oneOf negated rs :: ts, s =>
      match s with
      | [] => false
      | d :: rest => (rs.any fun r => r.1 ≤ d && d ≤ r.2) != negated && Matches ts rest

/-- The patterns match the components of a path one by one. -/
def MatchesPath : List (List Term) → List String → Bool
  | [], [] => true
  | ts :: rest, c :: cs => Matches ts c.toList && MatchesPath rest cs
  | _, _ => false

/-- The paths that match a pattern, in the order in which they are given. -/
def glob (pattern : List String) (paths : List (List String)) : Option (List (List String)) := do
  let ts ← pattern.mapM compile
  some (paths.filter (MatchesPath ts))

/-! ## Patterns without special characters -/

/-- The characters that have a meaning in patterns. -/
def isMeta (c : Char) : Bool := c == '*' || c == '?' || c == '[' || c == '\\'

def Literal (s : String) : Prop := ∀ c ∈ s.toList, isMeta c = false

instance (s : String) : Decidable (Literal s) := List.decidableBAll _ _

theorem terms_literal {s : List Char} (h : ∀ c ∈ s, isMeta c = false) :
    terms s.length s = some (s.map .lit) := by
  induction s with
  | nil => rfl
  | cons c s ih =>
      have hc : c ≠ '*' ∧ c ≠ '?' ∧ c ≠ '[' ∧ c ≠ '\\' := by
        simpa [isMeta, and_assoc] using h c List.mem_cons_self
      obtain ⟨hstar, hany, hclass, hescape⟩ := hc
      rw [List.length_cons, terms.eq_def]
      dsimp only
      rw [if_neg hstar, if_neg hany, if_neg hclass, if_neg hescape,
        ih fun d hd => h d (List.mem_cons_of_mem _ hd)]
      rfl

theorem compile_literal {s : String} (h : Literal s) : compile s = some (s.toList.map .lit) :=
  terms_literal h

/-- Characters that stand for themselves match a beginning of the text. -/
theorem matches_literal_append (p : List Char) (ts : List Term) (s : List Char) :
    Matches (p.map .lit ++ ts) s ↔ ∃ rest, s = p ++ rest ∧ Matches ts rest := by
  induction p generalizing s with
  | nil => simp
  | cons c p ih =>
      rw [List.map_cons, List.cons_append]
      cases s with
      | nil => simp [Matches]
      | cons d s => simp [Matches, ih, and_assoc]

theorem matches_literal (p s : List Char) : Matches (p.map .lit) s ↔ s = p := by
  have happend := matches_literal_append p [] s
  rw [List.append_nil] at happend
  rw [happend]
  constructor
  · rintro ⟨rest, rfl, hrest⟩
    rw [List.isEmpty_iff.mp hrest, List.append_nil]
  · rintro rfl
    exact ⟨[], (List.append_nil s).symm, rfl⟩

/-- A star between characters that stand for themselves matches the texts that begin and end
with them. -/
theorem matches_star_between (p q s : List Char) :
    Matches (p.map .lit ++ .star :: q.map .lit) s ↔ ∃ t, s = p ++ t ++ q := by
  rw [matches_literal_append]
  constructor
  · rintro ⟨rest, rfl, hrest⟩
    obtain ⟨tail, htail, hq⟩ := List.any_eq_true.mp hrest
    obtain ⟨t, rfl⟩ := (List.mem_tails _ _).mp htail
    rw [(matches_literal q tail).mp hq]
    exact ⟨t, (List.append_assoc _ _ _).symm⟩
  · rintro ⟨t, rfl⟩
    refine ⟨t ++ q, List.append_assoc _ _ _, List.any_eq_true.mpr ⟨q, ?_, ?_⟩⟩
    · exact (List.mem_tails _ _).mpr (List.suffix_append t q)
    · exact (matches_literal q q).mpr rfl

theorem mapM_compile_literal {dir : List String} (h : ∀ c ∈ dir, Literal c) :
    dir.mapM compile = some (dir.map fun c => c.toList.map .lit) := by
  induction dir with
  | nil => rfl
  | cons c dir ih =>
      rw [List.mapM_cons, compile_literal (h c List.mem_cons_self),
        ih fun d hd => h d (List.mem_cons_of_mem _ hd)]
      rfl

theorem matchesPath_literal_append (dir : List String) (ts : List Term) (p : List String) :
    MatchesPath (dir.map (fun c => c.toList.map .lit) ++ [ts]) p ↔
      ∃ name : String, p = dir ++ [name] ∧ Matches ts name.toList := by
  induction dir generalizing p with
  | nil =>
      cases p with
      | nil => simp [MatchesPath]
      | cons name p => cases p <;> simp [MatchesPath]
  | cons c dir ih =>
      cases p with
      | nil => simp [MatchesPath]
      | cons d p =>
          simp only [List.map_cons, List.cons_append, MatchesPath, Bool.and_eq_true,
            matches_literal, String.toList_inj, ih, List.cons.injEq]
          constructor
          · rintro ⟨rfl, name, rfl, hname⟩
            exact ⟨name, ⟨rfl, rfl⟩, hname⟩
          · rintro ⟨name, ⟨rfl, rfl⟩, hname⟩
            exact ⟨rfl, name, rfl, hname⟩

/-- In a directory without special characters in its name, a pattern finds the files of this
directory whose name matches. -/
theorem glob_dir {dir : List String} (hdir : ∀ c ∈ dir, Literal c) {pattern : String}
    {ts : List Term} (hpattern : compile pattern = some ts) (paths : List (List String)) :
    ∃ found, glob (dir ++ [pattern]) paths = some found ∧
      (∀ p, p ∈ found ↔ p ∈ paths ∧
        ∃ name : String, p = dir ++ [name] ∧ Matches ts name.toList) ∧
      (paths.Nodup → found.Nodup) := by
  have hterms : (dir ++ [pattern]).mapM compile =
      some (dir.map (fun c => c.toList.map .lit) ++ [ts]) := by
    simp [List.mapM_append, mapM_compile_literal hdir, hpattern]
  refine ⟨_, by rw [glob, hterms]; rfl, fun p => ?_, fun hnd => hnd.filter _⟩
  rw [List.mem_filter, matchesPath_literal_append]

example : (compile "a[^x-z]*\\?").map (Matches · "abcd?".toList) = some true := by decide

example : (compile "a[^x-z]*\\?").map (Matches · "axcd?".toList) = some false := by decide

example : (compile "a[]").isNone = true := by decide

end PmxAgents.Lib.Glob

import Mathlib.Data.List.Basic

/-!
# Programs that ask

A program that runs commands asks its environment questions and goes on by the
replies. It is a tree; a run is a path through the tree, the list of the questions
with the replies they got.
-/

namespace PmxAgents.Lib.Dialogue

variable {Q R σ ε α β : Type}

inductive Talk (Q R α : Type) where
  | ret (a : α)
  | ask (q : Q) (next : R → Talk Q R α)

def Talk.bind : Talk Q R α → (α → Talk Q R β) → Talk Q R β
  | .ret a, f => f a
  | .ask q next, f => .ask q fun r => (next r).bind f

/-- The questions of a run with their replies, in order. -/
abbrev Log (Q R : Type) := List (Q × R)

inductive Run : Talk Q R α → Log Q R → α → Prop
  | ret (a : α) : Run (.ret a) [] a
  | ask {q : Q} {next : R → Talk Q R α} (r : R) {log : Log Q R} {a : α}
      (tail : Run (next r) log a) : Run (.ask q next) ((q, r) :: log) a

/-- The questions of a run that may be cut off after any reply, and its end if it was not. -/
inductive Begins : Talk Q R α → Log Q R → Option α → Prop
  | cut (t : Talk Q R α) : Begins t [] none
  | ret (a : α) : Begins (.ret a) [] (some a)
  | ask {q : Q} {next : R → Talk Q R α} (r : R) {log : Log Q R} {a : Option α}
      (tail : Begins (next r) log a) : Begins (.ask q next) ((q, r) :: log) a

/-- A run of two programs is cut off in the first, or goes on with the second. -/
theorem begins_bind {t : Talk Q R α} {f : α → Talk Q R β} {log : Log Q R} {b : Option β}
    (h : Begins (t.bind f) log b) :
    b = none ∧ Begins t log none ∨
      ∃ first rest a, log = first ++ rest ∧ Begins t first (some a) ∧ Begins (f a) rest b := by
  induction t generalizing log with
  | ret a => exact Or.inr ⟨[], log, a, rfl, .ret a, h⟩
  | ask q next ih =>
      rw [Talk.bind] at h
      cases h with
      | cut => exact Or.inl ⟨rfl, .cut _⟩
      | ask r tail =>
          rcases ih r tail with ⟨hb, hcut⟩ | ⟨first, rest, a, rfl, hfirst, hrest⟩
          · exact Or.inl ⟨hb, .ask r hcut⟩
          · exact Or.inr ⟨(q, r) :: first, rest, a, rfl, .ask r hfirst, hrest⟩

end PmxAgents.Lib.Dialogue

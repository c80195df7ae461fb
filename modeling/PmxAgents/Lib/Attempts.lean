import Mathlib.Data.List.Chain
import PmxAgents.Lib.Dialogue

/-!
# Attempts of a program

A program that works on something outside of it is started again and again: it ends, or it is
cut off after any of its questions, and the next attempt finds what the last has left. What
a question with its reply does outside is a relation on states.

A property of the state that every attempt keeps holds before and after all of them.
-/

namespace PmxAgents.Lib.Dialogue

variable {S Q R α β : Type} {effect : S → Q → R → S → Prop}

/-- What the questions of a run do, one after the other. -/
inductive Effects (effect : S → Q → R → S → Prop) : S → Log Q R → S → Prop
  | nil (s : S) : Effects effect s [] s
  | cons {s s' s'' : S} {q : Q} {r : R} {log : Log Q R} (first : effect s q r s')
      (rest : Effects effect s' log s'') : Effects effect s ((q, r) :: log) s''

theorem effects_append {s s' : S} {first rest : Log Q R} (h : Effects effect s (first ++ rest) s') :
    ∃ mid, Effects effect s first mid ∧ Effects effect mid rest s' := by
  induction first generalizing s with
  | nil => exact ⟨s, .nil s, h⟩
  | cons e first ih =>
      cases h with
      | cons heffect htail =>
          obtain ⟨mid, hfirst, hrest⟩ := ih htail
          exact ⟨mid, .cons heffect hfirst, hrest⟩

theorem effects_of_ret {a : α} {b : Option α} {log : Log Q R} {s s' : S}
    (h : Begins (.ret a) log b) (heffects : Effects effect s log s') : s' = s := by
  cases h with
  | cut =>
      cases heffects
      rfl
  | ret =>
      cases heffects
      rfl

/-- A run from one state to another, which may have been cut off. -/
structure Attempt (S Q R α : Type) where
  before : S
  log : Log Q R
  result : Option α
  after : S

/-- Attempts one after the other, each of which finds the state as the last has left it. -/
structure History (effect : S → Q → R → S → Prop) (t : Talk Q R α)
    (attempts : List (Attempt S Q R α)) : Prop where
  runs : ∀ a ∈ attempts, Begins t a.log a.result
  effects : ∀ a ∈ attempts, Effects effect a.before a.log a.after
  linked : attempts.IsChain fun a b => a.after = b.before

theorem History.tail {t : Talk Q R α} {a : Attempt S Q R α} {attempts : List (Attempt S Q R α)}
    (h : History effect t (a :: attempts)) : History effect t attempts :=
  ⟨fun b hb => h.runs b (List.mem_cons_of_mem _ hb),
    fun b hb => h.effects b (List.mem_cons_of_mem _ hb), h.linked.tail⟩

/-- A property that every attempt keeps holds before and after all of them. -/
theorem History.invariant {t : Talk Q R α} {attempts : List (Attempt S Q R α)} {Inv : S → Prop}
    (h : History effect t attempts) (hstart : ∀ a ∈ attempts.head?, Inv a.before)
    (hstep : ∀ a ∈ attempts, Inv a.before → Inv a.after) :
    ∀ a ∈ attempts, Inv a.before ∧ Inv a.after := by
  induction attempts with
  | nil => exact nofun
  | cons a rest ih =>
      have hbefore : Inv a.before := hstart a rfl
      have hafter : Inv a.after := hstep a List.mem_cons_self hbefore
      intro b hb
      rcases List.mem_cons.mp hb with rfl | hb
      · exact ⟨hbefore, hafter⟩
      · refine ih h.tail (fun c hc => ?_) (fun c hc => hstep c (List.mem_cons_of_mem _ hc)) b hb
        cases rest with
        | nil => cases hc
        | cons d rest =>
            obtain rfl : d = c := Option.some.inj hc
            have hlink : a.after = d.before := (List.isChain_cons_cons.mp h.linked).1
            exact hlink ▸ hafter

/-! ## Programs that only ask some questions -/

/-- Every question of the program, whatever the replies, is one of these. -/
def Talk.Asks (p : Q → Prop) : Talk Q R α → Prop
  | .ret _ => True
  | .ask q next => p q ∧ ∀ r, (next r).Asks p

theorem Talk.Asks.log {p : Q → Prop} {t : Talk Q R α} {log : Log Q R} {a : Option α}
    (ht : t.Asks p) (hrun : Begins t log a) : ∀ e ∈ log, p e.1 := by
  induction hrun with
  | cut => exact nofun
  | ret => exact nofun
  | ask r tail ih =>
      intro e he
      rcases List.mem_cons.mp he with rfl | he
      · exact ht.1
      · exact ih (ht.2 r) e he

/-- What no single question changes, the questions of a run do not change together. -/
theorem effects_of_neutral {T : Type} {p : Q → Prop} (view : S → T)
    (hneutral : ∀ s q r s', p q → effect s q r s' → view s' = view s) {s s' : S} {log : Log Q R}
    (hlog : ∀ e ∈ log, p e.1) (h : Effects effect s log s') : view s' = view s := by
  induction h with
  | nil s => rfl
  | cons first rest ih =>
      rw [ih fun e he => hlog e (List.mem_cons_of_mem _ he)]
      exact hneutral _ _ _ _ (hlog _ List.mem_cons_self) first

/-! ## What a program returns -/

def Talk.Returns (p : α → Prop) : Talk Q R α → Prop
  | .ret a => p a
  | .ask _ next => ∀ r, (next r).Returns p

theorem Talk.returns_any (t : Talk Q R α) : t.Returns fun _ => True := by
  induction t with
  | ret a => trivial
  | ask q next ih => exact ih

theorem Talk.Returns.bind {p : α → Prop} {p' : β → Prop} {t : Talk Q R α} {f : α → Talk Q R β}
    (ht : t.Returns p) (hf : ∀ a, p a → (f a).Returns p') : (t.bind f).Returns p' := by
  induction t with
  | ret a => exact hf a ht
  | ask q next ih => exact fun r => ih r (ht r)

theorem Talk.Returns.result {p : α → Prop} {t : Talk Q R α} {log : Log Q R} {a : α}
    (ht : t.Returns p) (hrun : Begins t log (some a)) : p a := by
  induction t generalizing log with
  | ret a' =>
      cases hrun
      exact ht
  | ask q next ih =>
      cases hrun with
      | ask r tail => exact ih r (ht r) tail

end PmxAgents.Lib.Dialogue

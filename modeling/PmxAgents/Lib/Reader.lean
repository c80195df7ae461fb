import Mathlib.Data.List.Infix
import Mathlib.Data.List.TakeWhile
import Mathlib.Data.Nat.Notation

/-!
# Readers of the start of a text

A reader takes a value off the start of a text and returns the rest. A reader is
local when its answer depends on the consumed part alone: what follows can be
replaced. Local readers compose, so a text that is accepted by its start stays
accepted, with the same values, under every change of its tail.
-/

namespace PmxAgents.Lib

abbrev Reader (α : Type) := StateT (List Char) Option α

namespace Reader

variable {α β : Type}

/-- Take the given characters off the text. -/
def literal (l : List Char) : Reader Unit := fun s =>
  if l <+: s then some ((), s.drop l.length) else none

/-- Take exactly `n` decimal digits off the text. -/
def number (n : ℕ) : Reader ℕ := fun s =>
  if (s.take n).length = n ∧ (s.take n).all Char.isDigit then
    some ((s.take n).foldl (fun v c => 10 * v + (c.toNat - '0'.toNat)) 0, s.drop n)
  else none

/-- Take one decimal digit or more off the text, and the character after them, which is
`c`. -/
def digitsBefore (c : Char) : Reader (List Char) := fun s =>
  match s.dropWhile Char.isDigit with
  | d :: t =>
      if d = c ∧ s.takeWhile Char.isDigit ≠ [] then some (s.takeWhile Char.isDigit, t) else none
  | [] => none

/-- The answer depends on the consumed characters alone, and these satisfy `P`. -/
def Local (P : Char → Prop) (r : Reader α) : Prop :=
  ∀ s a t, r s = some (a, t) → ∃ c, s = c ++ t ∧ (∀ x ∈ c, P x) ∧ ∀ u, r (c ++ u) = some (a, u)

variable {P : Char → Prop}

theorem Local.pure (a : α) : Local P (pure a : Reader α) := by
  intro s b t h
  obtain ⟨rfl, rfl⟩ : a = b ∧ s = t := Prod.mk.inj (Option.some.inj h)
  exact ⟨[], rfl, by simp, fun u => rfl⟩

theorem Local.bind {r : Reader α} {f : α → Reader β} (hr : Local P r)
    (hf : ∀ a, Local P (f a)) : Local P (r >>= f) := by
  intro s b t h
  simp only [Bind.bind, StateT.bind, Option.bind_eq_some_iff] at h
  obtain ⟨⟨a, s'⟩, hra, hfa⟩ := h
  obtain ⟨c, rfl, hc, hloc⟩ := hr s a s' hra
  obtain ⟨c', rfl, hc', hloc'⟩ := hf a s' b t hfa
  refine ⟨c ++ c', (List.append_assoc _ _ _).symm, fun x hx => ?_, fun u => ?_⟩
  · rcases List.mem_append.mp hx with hx | hx
    · exact hc x hx
    · exact hc' x hx
  · simp only [Bind.bind, StateT.bind, Option.bind_eq_some_iff]
    exact ⟨(a, c' ++ u), by rw [List.append_assoc, hloc], hloc' u⟩

theorem bind_of {r : Reader α} {f : α → Reader β} {s t : List Char} {a : α}
    (h : r s = some (a, t)) : (r >>= f) s = f a t := by
  simp [Bind.bind, StateT.bind, h]

theorem literal_cons (c : Char) (u : List Char) : literal [c] (c :: u) = some ((), u) := by
  simp [literal]

theorem literal_append (l u : List Char) : literal l (l ++ u) = some ((), u) := by
  simp [literal]

theorem literal_local {l : List Char} (hl : ∀ x ∈ l, P x) : Local P (literal l) := by
  intro s a t h
  unfold literal at h
  split at h
  · rename_i hpre
    obtain ⟨u, rfl⟩ := hpre
    obtain rfl : u = t := by simpa using h
    exact ⟨l, rfl, hl, literal_append l⟩
  · cases h

theorem number_local {n : ℕ} (hP : ∀ c, c.isDigit → P c) : Local P (number n) := by
  intro s a t h
  unfold number at h
  split at h
  · rename_i hs
    cases h
    refine ⟨s.take n, (List.take_append_drop n s).symm, fun x hx => ?_, fun u => ?_⟩
    · exact hP x (List.all_eq_true.mp hs.2 x hx)
    · have htake : (s.take n ++ u).take n = s.take n := List.take_left' hs.1
      have hdrop : (s.take n ++ u).drop n = u := List.drop_left' hs.1
      rw [number, htake, hdrop, if_pos hs]
  · cases h

theorem digitsBefore_local {c : Char} (hc : c.isDigit = false) (hPc : P c)
    (hP : ∀ c, c.isDigit → P c) : Local P (digitsBefore c) := by
  intro s a t h
  unfold digitsBefore at h
  split at h
  · rename_i d t' hdrop
    split at h
    · rename_i hd
      obtain ⟨rfl, hne⟩ := hd
      cases h
      have hs : s = s.takeWhile Char.isDigit ++ [d] ++ t := by
        rw [List.append_assoc, List.singleton_append, ← hdrop, List.takeWhile_append_dropWhile]
      generalize hds : s.takeWhile Char.isDigit = ds at hs hne
      have hall : ∀ x ∈ ds, x.isDigit = true := fun x hx => List.mem_takeWhile_imp (hds ▸ hx)
      refine ⟨ds ++ [d], hs, fun x hx => ?_, fun u => ?_⟩
      · rcases List.mem_append.mp hx with hx | hx
        · exact hP x (hall x hx)
        · exact List.mem_singleton.mp hx ▸ hPc
      · have hdropW : (ds ++ [d] ++ u).dropWhile Char.isDigit = d :: u := by
          rw [List.append_assoc, List.dropWhile_append_of_pos hall]
          simp [hc]
        have htakeW : (ds ++ [d] ++ u).takeWhile Char.isDigit = ds := by
          rw [List.append_assoc, List.takeWhile_append_of_pos hall]
          simp [hc]
        rw [digitsBefore, hdropW, htakeW]
        simp [hne]
    · cases h
  · cases h

end Reader

end PmxAgents.Lib

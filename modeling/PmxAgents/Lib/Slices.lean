import Mathlib.Data.List.Basic
import Mathlib.Data.List.Range

/-!
# Numbered slices of a list

A list is cut into slices of a fixed size, numbered from one; the last slice may
be shorter. Joined in order the slices are the list, and slices of other content
but the same lengths join to the list only if they are all equal.
-/

namespace PmxAgents.Lib.Slices

variable {α : Type*}

def slices (size : ℕ) (l : List α) : List (ℕ × List α) :=
  (List.range ((l.length + size - 1) / size)).map fun i => (i + 1, (l.drop (i * size)).take size)

theorem flatten_range_take (size k : ℕ) (l : List α) :
    ((List.range k).map fun i => (l.drop (i * size)).take size).flatten = l.take (k * size) := by
  induction k with
  | zero => simp
  | succ k ih =>
      rw [List.range_succ, List.map_append, List.flatten_append, ih, Nat.succ_mul, List.take_add]
      simp

theorem flatten_slices {size : ℕ} (hsize : 0 < size) (l : List α) :
    ((slices size l).map Prod.snd).flatten = l := by
  rw [slices, List.map_map]
  refine (flatten_range_take size _ l).trans (List.take_of_length_le ?_)
  have hdiv := Nat.div_add_mod (l.length + size - 1) size
  have hmod := Nat.mod_lt (l.length + size - 1) hsize
  rw [Nat.mul_comm]
  omega

theorem pairwise_slices (size : ℕ) (l : List α) :
    ((slices size l).map Prod.fst).Pairwise (· < ·) := by
  rw [slices, List.map_map, List.pairwise_map]
  exact List.pairwise_lt_range.imp fun h => Nat.succ_lt_succ h

/-- Contents of the lengths of the slices join to the list exactly if they are the slices. -/
theorem flatten_map_eq_iff {size : ℕ} (hsize : 0 < size) {l : List α}
    {f : ℕ × List α → List α} (hlen : ∀ s ∈ slices size l, (f s).length = s.2.length) :
    ((slices size l).map f).flatten = l ↔ ∀ s ∈ slices size l, f s = s.2 := by
  have hlens : ((slices size l).map f).map List.length =
      ((slices size l).map Prod.snd).map List.length := by
    rw [List.map_map, List.map_map]
    exact List.map_congr_left hlen
  have hmap : (slices size l).map f = (slices size l).map Prod.snd ↔
      ∀ s ∈ slices size l, f s = s.2 := List.map_inj_left
  rw [← hmap, List.eq_iff_flatten_eq]
  constructor
  · intro h
    exact ⟨h.trans (flatten_slices hsize l).symm, hlens⟩
  · rintro ⟨h, -⟩
    exact h.trans (flatten_slices hsize l)

end PmxAgents.Lib.Slices

import Mathlib.Data.List.Basic
import Mathlib.Data.Nat.ModEq

/-!
# Ring buffers

The contents of a circular buffer, read from its head. Writing behind the last place extends
them, and moving the head on drops the first.
-/

namespace PmxAgents.Lib.Ring

variable {α : Type} (d : α)

/-- The contents of a buffer that begins at a place, in order. -/
def contents (buf : List α) (head size : ℕ) : List α :=
  (List.range size).map fun i => buf.getD ((head + i) % buf.length) d

variable {d}

/-- Two places of a buffer that are not a whole turn apart are different. -/
theorem place_ne {cap i j : ℕ} (head : ℕ) (hi : i < j) (hj : j < cap) :
    (head + i) % cap ≠ (head + j) % cap := by
  intro h
  have hmod : i ≡ j [MOD cap] := Nat.ModEq.add_left_cancel' head h
  rw [Nat.ModEq, Nat.mod_eq_of_lt (hi.trans hj), Nat.mod_eq_of_lt hj] at hmod
  exact hi.ne hmod

theorem contents_write {buf : List α} {size : ℕ} (head : ℕ) (hsize : size < buf.length) (x : α) :
    contents d (buf.set ((head + size) % buf.length) x) head (size + 1) =
      contents d buf head size ++ [x] := by
  have hplace : (head + size) % buf.length < buf.length :=
    Nat.mod_lt _ (Nat.lt_of_le_of_lt (Nat.zero_le _) hsize)
  rw [contents, contents, List.range_succ, List.map_append, List.length_set]
  congr 1
  · refine List.map_congr_left fun i hi => ?_
    have hne := place_ne head (List.mem_range.mp hi) hsize
    simp [List.getD_eq_getElem?_getD, List.getElem?_set_ne hne.symm]
  · simp [List.getD_eq_getElem?_getD, hplace]

theorem contents_advance (buf : List α) (head size : ℕ) :
    contents d buf ((head + 1) % buf.length) size = (contents d buf head (size + 1)).tail := by
  rw [contents, contents, List.range_succ_eq_map, List.map_cons, List.tail_cons, List.map_map]
  refine List.map_congr_left fun i _ => ?_
  rw [Nat.mod_add_mod, Nat.add_assoc, Nat.add_comm 1 i]
  rfl

end PmxAgents.Lib.Ring

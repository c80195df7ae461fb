import Mathlib.Data.List.Infix
import Mathlib.Data.List.TakeDrop

/-!
# Copies that are resumed

A file is written from an offset on; what stands before the offset and behind the written part
stays. A copy that is interrupted leaves a part of a file, and a copy that is resumed completes
such a part from its length on. The result is the source exactly if the part is a first part of
the source, and it stays one when the copy is interrupted again.
-/

namespace PmxAgents.Lib.PartialCopy

variable {α : Type*} {source part : List α}

/-- The content of a file that is written from an offset inside it on. -/
def writeAt (content : List α) (offset : ℕ) (data : List α) : List α :=
  content.take offset ++ data ++ content.drop (offset + data.length)

theorem writeAt_length (content data : List α) :
    writeAt content content.length data = content ++ data := by
  rw [writeAt, List.take_length, List.drop_eq_nil_of_le (Nat.le_add_right _ _), List.append_nil]

theorem writeAt_zero (content data : List α) :
    writeAt content 0 data = data ++ content.drop data.length := by
  rw [writeAt, List.take_zero, List.nil_append, Nat.zero_add]

@[simp] theorem writeAt_nil (data : List α) : writeAt [] 0 data = data := by
  rw [writeAt_zero, List.drop_nil, List.append_nil]

/-- Completing a part gives the source exactly if it is a part of the source. -/
theorem append_drop_eq_iff : part ++ source.drop part.length = source ↔ part <+: source := by
  constructor
  · intro h
    rw [← h]
    exact List.prefix_append _ _
  · rintro ⟨rest, rfl⟩
    rw [List.drop_left]

/-- Writing the source over a file gives the source exactly if nothing of the file is left. -/
theorem append_drop_length_eq_iff :
    source ++ part.drop source.length = source ↔ part.length ≤ source.length := by
  rw [List.append_right_eq_self, List.drop_eq_nil_iff]

end PmxAgents.Lib.PartialCopy

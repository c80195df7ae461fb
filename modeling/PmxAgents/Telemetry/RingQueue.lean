import Mathlib.Data.List.DropRight
import PmxAgents.Telemetry.Push

/-!
# The ring as a bounded queue

After any pushes the ring holds the last of them, as many as it has places, and counts the
others as dropped. A drain takes those batches from it that are stamped after the cutoff,
where it is documented to take those at the cutoff too.

## Implementation notes

The count of dropped batches has no upper end here.
-/

namespace PmxAgents.Telemetry.Push

/-- The batches of a queue with `cap` places after some pushes. -/
def held (cap : ℕ) (pushes : List Batch) : List Batch := pushes.rtake cap

/-- All metrics of a batch have one timestamp. -/
def Uniform (batch : Batch) : Prop := ∀ m ∈ batch, m.timestamp = stamp batch

/-- The metrics of the batch are stamped at the cutoff or after it. -/
def AtOrAfter (cutoff : ℤ) (batch : Batch) : Prop := batch ≠ [] ∧ ∀ m ∈ batch, cutoff ≤ m.timestamp

instance (cutoff : ℤ) (batch : Batch) : Decidable (AtOrAfter cutoff batch) :=
  @instDecidableAnd _ _ inferInstance (List.decidableBAll _ _)

/-- The ring stands for the queue. -/
structure Represents (r : RingBuffer) (pushes : List Batch) : Prop where
  contents : r.contents = held r.cap pushes
  size : r.size = min pushes.length r.cap
  dropped : r.dropped = pushes.length - r.cap

/-! ## Pushes -/

theorem held_concat_of_lt {cap : ℕ} {pushes : List Batch} (h : pushes.length < cap)
    (batch : Batch) :
    held cap (pushes ++ [batch]) = held cap pushes ++ [batch] := by
  have hold : pushes.length - cap = 0 := by omega
  have hnew : (pushes ++ [batch]).length - cap = 0 := by
    rw [List.length_append, List.length_singleton]
    omega
  rw [held, held, List.rtake, List.rtake, hold, hnew, List.drop_zero, List.drop_zero]

theorem held_concat_of_le {cap : ℕ} {pushes : List Batch} (hcap : 0 < cap)
    (h : cap ≤ pushes.length) (batch : Batch) :
    held cap (pushes ++ [batch]) = (held cap pushes).tail ++ [batch] := by
  have hnew : (pushes ++ [batch]).length - cap = pushes.length - cap + 1 := by
    rw [List.length_append, List.length_singleton]
    omega
  rw [held, held, List.rtake, List.rtake, hnew, List.tail_drop,
    List.drop_append_of_le_length (by omega)]

theorem cap_push (r : RingBuffer) (batch : Batch) : (r.push batch).cap = r.cap := by
  rw [RingBuffer.push]
  split_ifs <;> rfl

theorem represents_new (capacity : ℤ) : Represents (newRingBuffer capacity) [] :=
  ⟨(List.rtake_nil _).symm, (Nat.zero_min _).symm, (Nat.zero_sub _).symm⟩

theorem Represents.push {r : RingBuffer} {pushes : List Batch} (h : Represents r pushes)
    (batch : Batch) : Represents (r.push batch) (pushes ++ [batch]) := by
  have hcap : 0 < r.cap := Nat.zero_lt_of_lt r.head_lt
  have hsize := h.size
  have hdropped := h.dropped
  have hcontents := r.contents_push batch
  by_cases hfull : r.size = r.cap
  · have hle : r.cap ≤ pushes.length := by omega
    rw [if_pos hfull, h.contents, ← held_concat_of_le hcap hle] at hcontents
    refine ⟨by rw [hcontents, cap_push], ?_, ?_⟩
    · rw [cap_push, RingBuffer.push, dif_pos hfull, List.length_append, List.length_singleton]
      show r.size = _
      omega
    · rw [cap_push, RingBuffer.push, dif_pos hfull, List.length_append, List.length_singleton]
      show r.dropped + 1 = _
      omega
  · have hlt : pushes.length < r.cap := by omega
    rw [if_neg hfull, h.contents, ← held_concat_of_lt hlt] at hcontents
    refine ⟨by rw [hcontents, cap_push], ?_, ?_⟩
    · rw [cap_push, RingBuffer.push, dif_neg hfull, List.length_append, List.length_singleton]
      show r.size + 1 = _
      omega
    · rw [cap_push, RingBuffer.push, dif_neg hfull, List.length_append, List.length_singleton]
      show r.dropped = _
      omega

/-- The ring after some pushes. -/
def pushAll (capacity : ℤ) (pushes : List Batch) : RingBuffer :=
  pushes.foldl RingBuffer.push (newRingBuffer capacity)

theorem pushAll_concat (capacity : ℤ) (pushes : List Batch) (batch : Batch) :
    pushAll capacity (pushes ++ [batch]) = (pushAll capacity pushes).push batch := by
  rw [pushAll, List.foldl_append]
  rfl

theorem represents_pushAll (capacity : ℤ) (pushes : List Batch) :
    Represents (pushAll capacity pushes) pushes := by
  induction pushes using List.reverseRecOn with
  | nil => exact represents_new capacity
  | append_singleton pushes batch ih =>
      rw [pushAll_concat]
      exact ih.push batch

theorem cap_pushAll {capacity : ℤ} (hcapacity : 1 ≤ capacity) (pushes : List Batch) :
    (pushAll capacity pushes).cap = capacity.toNat := by
  induction pushes using List.reverseRecOn with
  | nil => exact if_neg (by omega)
  | append_singleton pushes batch ih => rw [pushAll_concat, cap_push, ih]

/-! ## Drains -/

/-- A batch at the cutoff is the only one on which the code and its documentation differ. -/
theorem drained_iff {cutoff : ℤ} {batch : Batch} (h : Uniform batch) :
    (decide (batch ≠ [] ∧ cutoff < stamp batch) = decide (AtOrAfter cutoff batch)) ↔
      (batch ≠ [] → stamp batch ≠ cutoff) := by
  rw [decide_eq_decide, AtOrAfter]
  cases batch with
  | nil => simp
  | cons m rest =>
      have hall : (∀ m' ∈ m :: rest, cutoff ≤ m'.timestamp) ↔ cutoff ≤ stamp (m :: rest) := by
        constructor
        · exact fun hle => hle m List.mem_cons_self
        · exact fun hle m' hm' => (h m' hm').symm ▸ hle
      simp only [ne_eq, reduceCtorEq, not_false_eq_true, true_and, hall, true_imp_iff]
      omega

theorem drainSince_eq_iff {r : RingBuffer} {pushes : List Batch} (h : Represents r pushes)
    (huniform : ∀ batch ∈ pushes, Uniform batch) (cutoff : ℤ) :
    r.drainSince cutoff = (held r.cap pushes).filter (fun batch => AtOrAfter cutoff batch) ↔
      ∀ batch ∈ held r.cap pushes, batch ≠ [] → stamp batch ≠ cutoff := by
  have hmem : ∀ batch ∈ held r.cap pushes, Uniform batch :=
    fun batch hbatch => huniform batch (List.mem_of_mem_drop hbatch)
  rw [RingBuffer.drainSince, h.contents]
  constructor
  · intro heq batch hbatch
    refine (drained_iff (hmem batch hbatch)).mp ?_
    rw [decide_eq_decide]
    have hboth : batch ∈ (held r.cap pushes).filter (fun b => b ≠ [] ∧ cutoff < stamp b) ↔
        batch ∈ (held r.cap pushes).filter (fun b => AtOrAfter cutoff b) := by
      rw [heq]
    simpa only [List.mem_filter, hbatch, true_and, decide_eq_true_eq] using hboth
  · intro hne
    exact List.filter_congr fun batch hbatch =>
      (drained_iff (hmem batch hbatch)).mpr (hne batch hbatch)

/-- The ring holds the last batches, as many as it has places, and counts the others; a drain takes
from them those at the cutoff or after it exactly if none is at the cutoff. -/
theorem pushAll_bounded_queue {capacity : ℤ} (hcapacity : 1 ≤ capacity) (pushes : List Batch)
    (huniform : ∀ batch ∈ pushes, Uniform batch) :
    (pushAll capacity pushes).contents = held capacity.toNat pushes ∧
      (pushAll capacity pushes).size = min pushes.length capacity.toNat ∧
      (pushAll capacity pushes).dropped = pushes.length - capacity.toNat ∧
      ∀ cutoff, (pushAll capacity pushes).drainSince cutoff =
          (held capacity.toNat pushes).filter (fun batch => AtOrAfter cutoff batch) ↔
        ∀ batch ∈ held capacity.toNat pushes, batch ≠ [] → stamp batch ≠ cutoff := by
  have hrepresents := represents_pushAll capacity pushes
  have hcap := cap_pushAll hcapacity pushes
  refine ⟨?_, ?_, ?_, fun cutoff => ?_⟩
  · rw [hrepresents.contents, hcap]
  · rw [hrepresents.size, hcap]
  · rw [hrepresents.dropped, hcap]
  · rw [← hcap]
    exact drainSince_eq_iff hrepresents huniform cutoff

/-- Three batches in a ring with two places. -/
def threeBatches : List Batch := [[⟨1⟩], [⟨2⟩, ⟨2⟩], [⟨3⟩]]

theorem pushAll_bounded_queue_three :
    (∀ batch ∈ threeBatches, Uniform batch) ∧
      (pushAll 2 threeBatches).contents = [[⟨2⟩, ⟨2⟩], [⟨3⟩]] ∧
      (pushAll 2 threeBatches).dropped = 1 ∧ (pushAll 2 threeBatches).drainSince 1 =
        (held 2 threeBatches).filter (fun batch => AtOrAfter 1 batch) := by
  have huniform : ∀ batch ∈ threeBatches, Uniform batch := by
    simp [threeBatches, Uniform, stamp]
  obtain ⟨hcontents, -, hdropped, hdrain⟩ :=
    pushAll_bounded_queue (show (1 : ℤ) ≤ 2 by decide) threeBatches huniform
  exact ⟨huniform, hcontents, hdropped, (hdrain 1).mpr (by decide)⟩

/-- A batch that is stamped at the cutoff is not drained. -/
theorem batch_at_cutoff_left_out :
    Uniform [⟨5⟩] ∧ held 1 [[⟨5⟩]] = [[⟨5⟩]] ∧ AtOrAfter 5 [⟨5⟩] ∧
      (pushAll 1 [[⟨5⟩]]).drainSince 5 = [] := by
  refine ⟨?_, rfl, by decide, by decide⟩
  simp [Uniform, stamp]

end PmxAgents.Telemetry.Push

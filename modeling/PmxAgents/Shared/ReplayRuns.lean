import PmxAgents.Shared.ReplayCache

/-!
# Runs of the replay cache

The operations of the cache in any order, at clock readings that do not decrease. The map and the
list stay in step, the list stays within its capacity and in the order of the observation times,
and so the purge, which stops at the first entry that is young enough, removes all that are too
old.
-/

namespace PmxAgents.Shared.ReplayCache

open Lib

inductive Operation where
  | remember (jobID : String)
  | seen (jobID : String)
  | purge
  deriving DecidableEq

/-- The cache after an operation at a clock reading. -/
def perform (c : ReplayCache) (op : Operation) (now : Int) : ReplayCache :=
  match op with
  | .remember jobID => c.remember jobID now
  | .seen _ => c
  | .purge => c.purge now

def performAll (c : ReplayCache) (ops : List (Operation × Int)) : ReplayCache :=
  ops.foldl (fun c op => c.perform op.1 op.2) c

/-- The observation times along the list. -/
def times (c : ReplayCache) : List Int := c.order.map fun p => (c.heap p).observedAt

/-- What holds of a cache whose last clock reading is `t`. -/
structure Valid (capacity : Nat) (ttl t : Int) (c : ReplayCache) : Prop where
  consistent : c.Consistent
  capacity_eq : c.capacity = capacity
  ttl_eq : c.ttl = ttl
  length_le : c.order.length ≤ capacity
  ordered : Recency.Ordered t c.entries

section Runs
variable {capacity : Nat} {ttl t now : Int} {c : ReplayCache}

theorem valid_new (capacity : Nat) (ttl t : Int) : (new capacity ttl).Valid capacity ttl t where
  consistent := consistent_new capacity ttl
  capacity_eq := rfl
  ttl_eq := rfl
  length_le := Nat.zero_le _
  ordered := ⟨List.Pairwise.nil, fun _ he => absurd he List.not_mem_nil⟩

theorem Valid.remember (hcap : 1 ≤ capacity) (h : c.Valid capacity ttl t) (hle : t ≤ now)
    (jobID : String) : (c.remember jobID now).Valid capacity ttl now where
  consistent := consistent_remember h.consistent jobID now
  capacity_eq := (remember_capacity c jobID now).trans h.capacity_eq
  ttl_eq := (remember_ttl c jobID now).trans h.ttl_eq
  length_le := by
    rw [← length_entries, entries_remember h.consistent, h.capacity_eq]
    exact Recency.length_touch_le hcap ((length_entries c).trans_le h.length_le)
  ordered := by
    rw [entries_remember h.consistent]
    exact h.ordered.touch hle _ _

theorem Valid.purge (h : c.Valid capacity ttl t) (hle : t ≤ now) :
    (c.purge now).Valid capacity ttl now := by
  have hsuffix : (c.purge now).entries <:+ c.entries := by
    rw [entries_purge h.consistent]
    exact Recency.expire_suffix _ _
  refine ⟨consistent_purge h.consistent now, (purge_capacity h.consistent now).trans h.capacity_eq,
    (purge_ttl h.consistent now).trans h.ttl_eq, ?_, h.ordered.sublist hsuffix.sublist hle⟩
  rw [← length_entries]
  exact (hsuffix.length_le.trans_eq (length_entries c)).trans h.length_le

theorem Valid.perform (hcap : 1 ≤ capacity) (h : c.Valid capacity ttl t) (hle : t ≤ now)
    (op : Operation) : (c.perform op now).Valid capacity ttl now := by
  cases op with
  | remember jobID => exact h.remember hcap hle jobID
  | seen jobID =>
      exact ⟨h.consistent, h.capacity_eq, h.ttl_eq, h.length_le,
        h.ordered.sublist (List.Sublist.refl _) hle⟩
  | purge => exact h.purge hle

/-- A run keeps the cache valid, up to any reading after its last one. -/
theorem Valid.performAll (hcap : 1 ≤ capacity) (h : c.Valid capacity ttl t)
    {ops : List (Operation × Int)} (hclock : (t :: (ops.map Prod.snd ++ [now])).Pairwise (· ≤ ·)) :
    (c.performAll ops).Valid capacity ttl now := by
  induction ops generalizing c t with
  | nil =>
      have hle : t ≤ now := List.rel_of_pairwise_cons hclock List.mem_cons_self
      exact ⟨h.consistent, h.capacity_eq, h.ttl_eq, h.length_le,
        h.ordered.sublist (List.Sublist.refl _) hle⟩
  | cons op rest ih =>
      have hle : t ≤ op.2 := List.rel_of_pairwise_cons hclock List.mem_cons_self
      exact ih (h.perform hcap hle op.1) (List.pairwise_cons.mp hclock).2

theorem Valid.pairwise_order (h : c.Valid capacity ttl t) :
    c.order.Pairwise fun p q => (c.heap p).observedAt ≤ (c.heap q).observedAt := by
  have hpair := h.ordered.1
  rwa [entries, List.pairwise_map] at hpair

/-- The purge removes exactly the elements that are at least one time to live old. -/
theorem Valid.order_purge (h : c.Valid capacity ttl t) (now : Int) :
    (c.purge now).order =
      c.order.filter fun p => decide (now - (c.heap p).observedAt < ttl) := by
  have horder : (c.purge now).order =
      c.order.dropWhile fun p => decide ((c.heap p).observedAt ≤ now - c.ttl) :=
    (purgeFrom_spec (c := c) h.consistent).2.2.2.2
  rw [horder, Recency.dropWhile_eq_filter h.pairwise_order, h.ttl_eq]
  refine List.filter_congr fun p _ => decide_eq_decide.mpr ?_
  omega

end Runs

/-- In the cache after a run the map and the list are in step, within the capacity and in the order
of the observation times, and a purge removes exactly what is at least one time to live old. -/
theorem performAll_invariants {capacity : Nat} (hcap : 1 ≤ capacity) (ttl now : Int)
    {ops : List (Operation × Int)} (hclock : (ops.map Prod.snd ++ [now]).Pairwise (· ≤ ·)) :
    let c := (new capacity ttl).performAll ops
    (c.order.Nodup ∧ ∀ j p, c.index j = some p ↔ p ∈ c.order ∧ (c.heap p).jobID = j) ∧
      c.order.length ≤ capacity ∧ c.times.Pairwise (· ≤ ·) ∧
      (c.purge now).order =
        c.order.filter (fun p => decide (now - (c.heap p).observedAt < ttl)) ∧
      ∀ j p, (c.purge now).index j = some p ↔
        c.index j = some p ∧ now - (c.heap p).observedAt < ttl := by
  intro c
  have hvalid : c.Valid capacity ttl now := by
    -- any reading before the first one serves as the start
    cases hops : ops.map Prod.snd ++ [now] with
    | nil => simp at hops
    | cons t rest =>
        have hstart : (t :: (ops.map Prod.snd ++ [now])).Pairwise (· ≤ ·) := by
          rw [hops] at hclock ⊢
          refine List.pairwise_cons.mpr ⟨fun u hu => ?_, hclock⟩
          rcases List.mem_cons.mp hu with rfl | hu
          · exact le_refl _
          · exact List.rel_of_pairwise_cons hclock hu
        exact (valid_new capacity ttl t).performAll hcap hstart
  have hheap : (c.purge now).heap = c.heap := (purgeFrom_spec (c := c) hvalid.consistent).2.1
  refine ⟨⟨hvalid.consistent.nodup, hvalid.consistent.indexed⟩, hvalid.length_le, ?_,
    hvalid.order_purge now, fun j p => ?_⟩
  · rw [times, List.pairwise_map]
    exact hvalid.pairwise_order
  · rw [(consistent_purge hvalid.consistent now).indexed, hheap, hvalid.order_purge now,
      hvalid.consistent.indexed, List.mem_filter, decide_eq_true_eq]
    exact and_right_comm

theorem performAll_invariants_moved :
    let c := (new 2 3).performAll
      [(.remember "a", 0), (.remember "b", 1), (.remember "a", 2), (.seen "b", 2), (.purge, 4)]
    c.times = [2] ∧ ∀ p, c.index "a" = some p ↔ p ∈ c.order ∧ (c.heap p).jobID = "a" := by
  have hcap : 1 ≤ 2 := by decide
  have hclock : (([(.remember "a", 0), (.remember "b", 1), (.remember "a", 2), (.seen "b", 2),
      (.purge, 4)] : List (Operation × Int)).map Prod.snd ++ [5]).Pairwise (· ≤ ·) := by
    decide
  exact ⟨by decide, (performAll_invariants hcap 3 5 hclock).1.2 "a"⟩

end PmxAgents.Shared.ReplayCache

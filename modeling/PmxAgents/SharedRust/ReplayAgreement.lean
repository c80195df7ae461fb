import PmxAgents.Lib.Runs
import PmxAgents.Shared.ReplayCache
import PmxAgents.SharedRust.Verify

/-!
# The two replay caches side by side

A Go cache and a Rust cache take the same operations at the same instants. The Go
cache moves a refreshed job id to the back and keeps the order of the others. The
Rust cache takes it out by moving its last entry into the freed place, so a recent
entry can come to stand in front, where the next eviction takes it. As long as every
eviction takes the same entry from both, the caches hold the same entries, in
different orders, and answer alike.
-/

namespace PmxAgents.SharedRust.ReplayAgreement

open Lib Lib.Runs

inductive Op where
  | remember (jobId : String) (now : Int)
  | seen (jobId : String) (now : Int)
  | purge (now : Int)

def Op.now : Op → Int
  | .remember _ now => now
  | .seen _ now => now
  | .purge now => now

/-- The two caches and the instant of the last operation. -/
structure Pair where
  go : Shared.ReplayCache
  rust : ReplayCache
  clock : Int

def Pair.init (capacity : ℕ) (ttl clock : Int) : Pair :=
  ⟨Shared.ReplayCache.new capacity ttl, ReplayCache.new capacity ttl, clock⟩

/-- The same operation on both caches, at an instant not before the last one. -/
def step (p : Pair) (op : Op) : Option Pair :=
  if op.now < p.clock then none
  else
    match op with
    | .remember jobId now => some ⟨p.go.remember jobId now, p.rust.remember jobId now, now⟩
    | .seen _ now => some { p with clock := now }
    | .purge now => some ⟨p.go.purge now, p.rust.purge now, now⟩

/-- The caches answer alike. -/
def SeenAlike (p : Pair) : Op → Prop
  | .seen jobId now => p.go.seen jobId now = p.rust.seen jobId now
  | _ => True

/-- An eviction takes the same entry from both caches. -/
def EvictsAlike (p : Pair) : Op → Prop
  | .remember jobId _ => jobId ∉ Recency.keys p.rust.map → p.rust.capacity ≤ p.rust.map.length →
      p.rust.map.head? = p.go.entries.head?
  | _ => True

/-! ## Taking an entry out of the Rust cache -/

theorem lookup_isSome_iff {es : List (String × Int)} {k : String} :
    (es.lookup k).isSome ↔ k ∈ Recency.keys es := by
  rw [← not_iff_not, ← Recency.lookup_eq_none, Option.not_isSome_iff_eq_none]

/-- A key between others that are different from it. -/
theorem forget_append_cons {front back : List (String × Int)} {e : String × Int}
    (hfront : e.1 ∉ Recency.keys front) (hback : e.1 ∉ Recency.keys back) :
    Recency.forget (front ++ e :: back) e.1 = front ++ back := by
  have hkeep : ∀ es : List (String × Int), e.1 ∉ Recency.keys es → Recency.forget es e.1 = es :=
    fun es hes => List.filter_eq_self.mpr fun f hf =>
      decide_eq_true fun hfe => hes (hfe ▸ List.mem_map_of_mem hf)
  have hcons : Recency.forget (e :: back) e.1 = Recency.forget back e.1 := by
    simp [Recency.forget]
  rw [Recency.forget, List.filter_append]
  exact congrArg₂ _ (hkeep front hfront) (hcons.trans (hkeep back hback))

theorem findIdx?_append_cons {front back : List (String × Int)} {e : String × Int}
    (hfront : e.1 ∉ Recency.keys front) :
    (front ++ e :: back).findIdx? (fun f => f.1 == e.1) = some front.length := by
  have hnone : front.findIdx? (fun f => f.1 == e.1) = none :=
    List.findIdx?_eq_none_iff.mpr fun f hf =>
      beq_eq_false_iff_ne.mpr fun hfe => hfront (hfe ▸ List.mem_map_of_mem hf)
  rw [List.findIdx?_append, hnone, List.findIdx?_cons, if_pos (beq_self_eq_true e.1)]
  simp

/-- Up to the order of the entries a key is taken out. -/
theorem swapRemove_perm {es : List (String × Int)} {k : String} (hnd : (Recency.keys es).Nodup)
    (hk : k ∈ Recency.keys es) : (ReplayCache.swapRemove es k).Perm (Recency.forget es k) := by
  obtain ⟨e, he, rfl⟩ := List.mem_map.mp hk
  obtain ⟨front, back, rfl⟩ := List.append_of_mem he
  rw [Recency.keys_append, Recency.keys_cons] at hnd
  have hback : e.1 ∉ Recency.keys back := (List.nodup_cons.mp (List.nodup_append.mp hnd).2.1).1
  have hfront : e.1 ∉ Recency.keys front := fun hm =>
    (List.nodup_append.mp hnd).2.2 _ hm _ List.mem_cons_self rfl
  rw [forget_append_cons hfront hback, ReplayCache.swapRemove, findIdx?_append_cons hfront]
  obtain rfl | ⟨inner, last, rfl⟩ := List.eq_nil_or_concat back
  · simp
  · -- the last entry moves into the place of the key
    have hlast : (front ++ e :: (inner ++ [last])).getLast? = some last := by
      rw [← List.cons_append, ← List.append_assoc, List.getLast?_concat]
    have hset : (front ++ e :: (inner ++ [last])).set front.length last =
        (front ++ last :: inner) ++ [last] := by
      simp
    rw [List.concat_eq_append, hlast]
    simp only
    rw [hset, List.dropLast_concat]
    exact (List.perm_append_singleton last inner).symm.append_left front

theorem tail_perm {es fs : List (String × Int)} (h : es.Perm fs) (hhead : es.head? = fs.head?) :
    es.tail.Perm fs.tail := by
  cases es with
  | nil => rw [List.nil_perm.mp h]
  | cons e es =>
      cases fs with
      | nil => cases hhead
      | cons f fs =>
          obtain rfl : e = f := Option.some.inj hhead
          exact h.cons_inv

/-! ## One operation -/

/-- The caches hold the same entries; those of the Go cache stand in the order of their times. -/
structure Inv (p : Pair) : Prop where
  consistent : p.go.Consistent
  capacity : p.rust.capacity = p.go.capacity
  ttl : p.rust.ttl = p.go.ttl
  perm : p.rust.map.Perm p.go.entries
  ordered : Recency.Ordered p.clock p.go.entries

section Steps
variable {p q : Pair}

theorem inv_init (capacity : ℕ) (ttl clock : Int) : Inv (Pair.init capacity ttl clock) where
  consistent := Shared.ReplayCache.consistent_new capacity ttl
  capacity := rfl
  ttl := rfl
  perm := List.Perm.refl _
  ordered := ⟨List.Pairwise.nil, by simp [Pair.init]⟩

theorem Inv.nodup_map (h : Inv p) : (Recency.keys p.rust.map).Nodup :=
  (h.perm.map Prod.fst).nodup_iff.mpr h.consistent.nodup_keys

theorem Inv.mem_keys_iff (h : Inv p) (jobId : String) :
    jobId ∈ Recency.keys p.rust.map ↔ jobId ∈ Recency.keys p.go.entries :=
  (h.perm.map Prod.fst).mem_iff

/-- The caches answer alike, at any instant. -/
theorem Inv.seen_eq (h : Inv p) (jobId : String) (now : Int) :
    p.go.seen jobId now = p.rust.seen jobId now := by
  rw [Shared.ReplayCache.seen_eq h.consistent, ReplayCache.seen,
    Recency.lookup_perm h.nodup_map h.perm, h.ttl]
  cases p.go.entries.lookup jobId <;> rfl

theorem Inv.remember_perm (h : Inv p) {jobId : String} {now : Int}
    (halike : EvictsAlike p (.remember jobId now)) :
    (p.rust.remember jobId now).map.Perm (p.go.remember jobId now).entries := by
  rw [Shared.ReplayCache.entries_remember h.consistent, Recency.touch, ReplayCache.remember]
  simp only [lookup_isSome_iff, h.mem_keys_iff, h.capacity, h.perm.length_eq]
  split_ifs with hmem hfull
  · have hswap := swapRemove_perm h.nodup_map ((h.mem_keys_iff jobId).mpr hmem)
    exact (hswap.trans (h.perm.filter _)).append_right _
  · have hhead := halike (fun hm => hmem ((h.mem_keys_iff jobId).mp hm))
      (by rw [h.capacity, h.perm.length_eq]; exact hfull)
    exact (tail_perm h.perm hhead).append_right _
  · exact h.perm.append_right _

theorem Inv.purge_perm (h : Inv p) (now : Int) :
    (p.rust.purge now).map.Perm (p.go.purge now).entries := by
  rw [Shared.ReplayCache.entries_purge h.consistent, Recency.expire_eq_filter h.ordered,
    ReplayCache.purge, h.ttl]
  have hyoung : (fun e : String × Int => decide (now - e.2 < p.go.ttl)) =
      fun e => decide (now - p.go.ttl < e.2) := by
    funext e
    exact decide_eq_decide.mpr (by omega)
  rw [hyoung]
  exact h.perm.filter _

/-- What an operation does. -/
theorem step_cases {op : Op} (h : step p op = some q) : p.clock ≤ op.now ∧
    ((∃ jobId, op = .remember jobId op.now ∧
        q = ⟨p.go.remember jobId op.now, p.rust.remember jobId op.now, op.now⟩) ∨
      q = { p with clock := op.now } ∨
      q = ⟨p.go.purge op.now, p.rust.purge op.now, op.now⟩) := by
  rw [step.eq_def] at h
  split_ifs at h with hearly
  refine ⟨not_lt.mp hearly, ?_⟩
  cases op with
  | remember jobId now => exact .inl ⟨jobId, rfl, (Option.some.inj h).symm⟩
  | seen jobId now => exact .inr (.inl (Option.some.inj h).symm)
  | purge now => exact .inr (.inr (Option.some.inj h).symm)

/-- An operation that evicts the same entry keeps the caches in agreement. -/
theorem Inv.step {op : Op} (h : Inv p) (halike : EvictsAlike p op) (hstep : step p op = some q) :
    Inv q := by
  obtain ⟨hle, ⟨jobId, hop, rfl⟩ | rfl | rfl⟩ := step_cases hstep
  · rw [hop] at halike
    refine ⟨Shared.ReplayCache.consistent_remember h.consistent _ _, ?_, ?_,
      h.remember_perm halike, ?_⟩
    · rw [Shared.ReplayCache.remember_capacity]
      exact h.capacity
    · rw [Shared.ReplayCache.remember_ttl]
      exact h.ttl
    · rw [Shared.ReplayCache.entries_remember h.consistent]
      exact h.ordered.touch hle _ _
  · exact ⟨h.consistent, h.capacity, h.ttl, h.perm,
      h.ordered.sublist (List.Sublist.refl _) hle⟩
  · refine ⟨Shared.ReplayCache.consistent_purge h.consistent _, ?_, ?_, h.purge_perm _, ?_⟩
    · rw [Shared.ReplayCache.purge_capacity h.consistent]
      exact h.capacity
    · rw [Shared.ReplayCache.purge_ttl h.consistent]
      exact h.ttl
    · rw [Shared.ReplayCache.entries_purge h.consistent]
      exact h.ordered.sublist (Recency.expire_suffix _ _).sublist hle

end Steps

/-- In a run in which every eviction takes the same entry from both caches, every question is
answered alike. -/
theorem seen_alike_of_evicts_alike (capacity : ℕ) (ttl clock : Int) {ops : List Op}
    (h : Admits step EvictsAlike (Pair.init capacity ttl clock) ops) :
    Admits step SeenAlike (Pair.init capacity ttl clock) ops := by
  refine admits_of_invariant (fun p op q hp halike hq => hp.step halike hq) ?_
    (inv_init capacity ttl clock) h
  intro p op hp _
  cases op with
  | remember jobId now => trivial
  | seen jobId now => exact hp.seen_eq jobId now
  | purge now => trivial

/-- Two job ids in a cache for one: the first one is evicted from both. -/
theorem seen_alike_evicted :
    let ops : List Op := [.remember "a" 0, .remember "b" 1, .seen "a" 2]
    Admits step EvictsAlike (Pair.init 1 10 0) ops ∧
      Admits step SeenAlike (Pair.init 1 10 0) ops := by
  have halike : Admits step EvictsAlike (Pair.init 1 10 0)
      [.remember "a" 0, .remember "b" 1, .seen "a" 2] :=
    admits_cons (fun _ hfull => absurd hfull (by decide)) rfl
      (admits_cons (fun _ _ => by decide) rfl (admits_cons trivial rfl trivial))
  exact ⟨halike, seen_alike_of_evicts_alike 1 10 0 halike⟩

/-- Refreshing the oldest of three job ids brings the newest one to the front of the Rust cache,
where the next eviction takes it; the Go cache still has it. -/
theorem refreshed_evicts_newest :
    (exec step (Pair.init 3 10 0) [.remember "a" 0, .remember "b" 1, .remember "c" 2,
        .remember "a" 3, .remember "d" 4]).map
      (fun p => ((p.go.seen "b" 5, p.rust.seen "b" 5), (p.go.seen "c" 5, p.rust.seen "c" 5))) =
      some ((false, true), (true, false)) := by
  decide

end PmxAgents.SharedRust.ReplayAgreement

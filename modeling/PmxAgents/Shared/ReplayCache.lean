import PmxAgents.Lib.Recency

/-!
# The replay cache of the Go agents

The cache is a hash map from job ids to list elements together with a linked
list of those elements, oldest first. Elements are heap cells: the map and the
list share them by reference, and refreshing a job id writes through the
reference. `entries` reads the list as a recency list, and every operation is
shown to act on it as the abstract operation does.

## Implementation notes

A cell is addressed by a number taken from an allocation counter. The lock of
the source makes each operation one step, so an operation is a function of the
cache and of the clock reading it takes.
-/

namespace PmxAgents.Shared

open Lib

/-- The value of a list element: a job id and the time it was observed. -/
structure ReplayEntry where
  jobID : String
  observedAt : Int
  deriving DecidableEq, Repr

/-- The cache: heap cells, the map from job ids to cells, and the list of cells
with the oldest in front. Times are nanoseconds. -/
structure ReplayCache where
  capacity : Nat
  ttl : Int
  heap : Nat → ReplayEntry
  next : Nat
  index : String → Option Nat
  order : List Nat

namespace ReplayCache

/-- An empty cache with the given capacity and time to live. -/
def new (capacity : Nat) (ttl : Int) : ReplayCache where
  capacity := capacity
  ttl := ttl
  heap := fun _ => ⟨"", 0⟩
  next := 0
  index := fun _ => none
  order := []

/-- Whether a job id was observed less than the time to live ago. -/
def seen (c : ReplayCache) (jobID : String) (now : Int) : Bool :=
  match c.index jobID with
  | none => false
  | some el => decide (now - (c.heap el).observedAt < c.ttl)

/-- Evict the oldest element when the list has reached the capacity. -/
def evictOldest (c : ReplayCache) : ReplayCache :=
  if c.capacity ≤ c.order.length then
    match c.order with
    | [] => c
    | oldest :: rest =>
        { c with
          index := Function.update c.index (c.heap oldest).jobID none
          order := rest }
  else c

/-- Allocate a new element at the back of the list and index it. -/
def pushBack (c : ReplayCache) (jobID : String) (now : Int) : ReplayCache :=
  { c with
    heap := Function.update c.heap c.next ⟨jobID, now⟩
    next := c.next + 1
    index := Function.update c.index jobID (some c.next)
    order := c.order ++ [c.next] }

/-- Record a job id. A known one is refreshed and moved to the back; a new one
evicts the oldest element at capacity, whatever its age. -/
def remember (c : ReplayCache) (jobID : String) (now : Int) : ReplayCache :=
  match c.index jobID with
  | some el =>
      { c with
        heap := Function.update c.heap el { c.heap el with observedAt := now }
        order := c.order.erase el ++ [el] }
  | none => (c.evictOldest).pushBack jobID now

/-- Remove elements from the front up to the first one observed after the cutoff. -/
def purgeFrom (c : ReplayCache) (cutoff : Int) : List Nat → ReplayCache
  | [] => { c with order := [] }
  | front :: rest =>
      if cutoff < (c.heap front).observedAt then { c with order := front :: rest }
      else
        { c with index := Function.update c.index (c.heap front).jobID none }.purgeFrom cutoff rest

/-- The background purge at one clock reading. -/
def purge (c : ReplayCache) (now : Int) : ReplayCache :=
  c.purgeFrom (now - c.ttl) c.order

/-- The map and the list hold the same elements: an indexed element is in the
list under its own job id, and every listed element is indexed. -/
structure Consistent (c : ReplayCache) : Prop where
  nodup : c.order.Nodup
  allocated : ∀ p ∈ c.order, p < c.next
  indexed : ∀ j p, c.index j = some p ↔ p ∈ c.order ∧ (c.heap p).jobID = j

/-- The job ids and times the cache holds, oldest first. -/
def entries (c : ReplayCache) : List (String × Int) :=
  c.order.map fun p => ((c.heap p).jobID, (c.heap p).observedAt)

@[simp] theorem entries_new (capacity : Nat) (ttl : Int) : (new capacity ttl).entries = [] := rfl

theorem consistent_new (capacity : Nat) (ttl : Int) : (new capacity ttl).Consistent where
  nodup := List.nodup_nil
  allocated := by simp [new]
  indexed := by simp [new]

theorem length_entries (c : ReplayCache) : c.entries.length = c.order.length := by
  simp [entries]

/-- In a consistent cache different elements carry different job ids. -/
theorem Consistent.jobID_injOn {c : ReplayCache} (hc : c.Consistent) {p q : Nat}
    (hp : p ∈ c.order) (hq : q ∈ c.order) (h : (c.heap p).jobID = (c.heap q).jobID) : p = q := by
  have h₁ : c.index (c.heap q).jobID = some p := (hc.indexed _ p).mpr ⟨hp, h⟩
  have h₂ : c.index (c.heap q).jobID = some q := (hc.indexed _ q).mpr ⟨hq, rfl⟩
  exact Option.some.inj (h₁.symm.trans h₂)

theorem Consistent.nodup_keys {c : ReplayCache} (hc : c.Consistent) :
    (Recency.keys c.entries).Nodup := by
  have hmap : Recency.keys c.entries = c.order.map fun p => (c.heap p).jobID := by
    simp [Recency.keys, entries]
  rw [hmap]
  exact hc.nodup.map_on fun p hp q hq h => hc.jobID_injOn hp hq h

/-- The map finds exactly the entry the list holds for a job id. -/
theorem Consistent.lookup_entries {c : ReplayCache} (hc : c.Consistent) (j : String) :
    c.entries.lookup j = (c.index j).map fun p => (c.heap p).observedAt := by
  cases hj : c.index j with
  | none =>
      simp only [Option.map_none]
      rw [Recency.lookup_eq_none]
      intro hm
      obtain ⟨e, he, hej⟩ := List.mem_map.mp hm
      obtain ⟨p, hp, rfl⟩ := List.mem_map.mp he
      have hsome := (hc.indexed j p).mpr ⟨hp, hej⟩
      simp [hj] at hsome
  | some p =>
      obtain ⟨hp, hpj⟩ := (hc.indexed j p).mp hj
      obtain ⟨front, back, hsplit⟩ := List.append_of_mem hp
      have hfront : j ∉ Recency.keys (front.map fun q =>
          ((c.heap q).jobID, (c.heap q).observedAt)) := by
        intro hm
        obtain ⟨e, he, hej⟩ := List.mem_map.mp hm
        obtain ⟨q, hq, rfl⟩ := List.mem_map.mp he
        have hqp : q = p := hc.jobID_injOn (by simp [hsplit, hq]) hp (hej.trans hpj.symm)
        have hnd := hc.nodup
        rw [hsplit, List.nodup_append] at hnd
        exact hnd.2.2 q hq p (by simp) hqp
      simp only [entries, hsplit, List.map_append, List.map_cons, Option.map_some]
      rw [List.lookup_append, Recency.lookup_eq_none.mpr hfront, hpj]
      simp

/-- Seeing a job id reads its entry in the recency list. -/
theorem seen_eq {c : ReplayCache} (hc : c.Consistent) (j : String) (now : Int) :
    c.seen j now = match c.entries.lookup j with
      | none => false
      | some t => decide (now - t < c.ttl) := by
  rw [hc.lookup_entries]
  unfold seen
  cases c.index j <;> rfl

/-! ## The operations keep the cache consistent -/

/-- Unindexing and removing the front element. -/
theorem Consistent.dropFront {c : ReplayCache} {front : Nat} {rest : List Nat}
    (hc : { c with order := front :: rest }.Consistent) :
    { c with
      index := Function.update c.index (c.heap front).jobID none
      order := rest }.Consistent where
  nodup := (List.nodup_cons.mp hc.nodup).2
  allocated := fun p hp => hc.allocated p (List.mem_cons_of_mem _ hp)
  indexed := by
    intro j p
    have hnot : front ∉ rest := (List.nodup_cons.mp hc.nodup).1
    by_cases hj : j = (c.heap front).jobID
    · subst hj
      simp only [Function.update_self]
      constructor
      · intro h
        cases h
      · rintro ⟨hp, hpj⟩
        have heq : p = front :=
          hc.jobID_injOn (List.mem_cons_of_mem _ hp) (List.mem_cons_self) hpj
        exact absurd (heq ▸ hp) hnot
    · simp only [Function.update_of_ne hj]
      have hidx := hc.indexed j p
      simp only at hidx
      rw [hidx]
      constructor
      · rintro ⟨hp, hpj⟩
        rcases List.mem_cons.mp hp with rfl | hp
        · exact absurd hpj.symm hj
        · exact ⟨hp, hpj⟩
      · rintro ⟨hp, hpj⟩
        exact ⟨List.mem_cons_of_mem _ hp, hpj⟩

theorem consistent_evictOldest {c : ReplayCache} (hc : c.Consistent) :
    c.evictOldest.Consistent := by
  unfold evictOldest
  split
  · split
    · exact hc
    · rename_i oldest rest horder
      apply Consistent.dropFront
      rw [← horder]
      exact hc
  · exact hc

theorem entries_evictOldest (c : ReplayCache) :
    c.evictOldest.entries =
      if c.capacity ≤ c.entries.length then c.entries.tail else c.entries := by
  rw [length_entries]
  unfold evictOldest
  split
  · split <;> simp_all [entries]
  · rfl

/-- Eviction never adds an element, so the evicted cache still has a free cell. -/
theorem evictOldest_index_none {c : ReplayCache} {j : String} (h : c.index j = none) :
    c.evictOldest.index j = none := by
  unfold evictOldest
  split
  · split
    · exact h
    · rename_i oldest rest _
      by_cases hj : j = (c.heap oldest).jobID
      · simp [hj]
      · simpa [Function.update_of_ne hj] using h
  · exact h

theorem consistent_pushBack {c : ReplayCache} (hc : c.Consistent) {j : String} (now : Int)
    (hj : c.index j = none) : (c.pushBack j now).Consistent where
  nodup := by
    apply List.Nodup.append hc.nodup (by simp)
    intro p hp hpn
    have heq : p = c.next := by simpa using hpn
    exact absurd (hc.allocated p hp) (by omega)
  allocated := by
    intro p hp
    rcases List.mem_append.mp hp with hp | hp
    · exact Nat.lt_succ_of_lt (hc.allocated p hp)
    · have heq : p = c.next := by simpa using hp
      simp [pushBack, heq]
  indexed := by
    intro i p
    simp only [pushBack, List.mem_append, List.mem_singleton]
    by_cases hp : p = c.next
    · subst hp
      have hfresh : ∀ k, c.index k ≠ some c.next := by
        intro k hk
        exact absurd (hc.allocated _ ((hc.indexed k _).mp hk).1) (by omega)
      by_cases hi : i = j
      · simp [hi]
      · simp [Function.update_of_ne hi, hfresh i, Ne.symm hi]
    · by_cases hi : i = j
      · subst hi
        have hno : ¬ (p ∈ c.order ∧ (c.heap p).jobID = i) := by
          intro h
          simp [(hc.indexed i p).mpr h] at hj
        simp only [Function.update_self, Function.update_of_ne hp, hp, or_false, hno, iff_false,
          Option.some.injEq]
        exact fun h => hp h.symm
      · simp [Function.update_of_ne hi, hp, hc.indexed i p]

theorem entries_pushBack {c : ReplayCache} (hc : c.Consistent) (j : String) (now : Int) :
    (c.pushBack j now).entries = c.entries ++ [(j, now)] := by
  have hold : ∀ p ∈ c.order, Function.update c.heap c.next ⟨j, now⟩ p = c.heap p := by
    intro p hp
    exact Function.update_of_ne (Nat.ne_of_lt (hc.allocated p hp)) _ _
  simp only [entries, pushBack, List.map_append, List.map_cons, List.map_nil,
    Function.update_self]
  congr 1
  apply List.map_congr_left
  intro p hp
  rw [hold p hp]

theorem consistent_remember {c : ReplayCache} (hc : c.Consistent) (j : String) (now : Int) :
    (c.remember j now).Consistent := by
  unfold remember
  split
  · rename_i el hel
    obtain ⟨hmem, hjob⟩ := (hc.indexed j el).mp hel
    have hperm : (c.order.erase el ++ [el]).Perm c.order :=
      (List.perm_append_comm).trans (List.perm_cons_erase hmem).symm
    have hkeep : ∀ p, (Function.update c.heap el { c.heap el with observedAt := now } p).jobID =
        (c.heap p).jobID := by
      intro p
      by_cases hp : p = el
      · simp [hp]
      · rw [Function.update_of_ne hp]
    refine ⟨hperm.nodup_iff.mpr hc.nodup, fun p hp => hc.allocated p (hperm.subset hp), ?_⟩
    intro i p
    simp only [hkeep, hperm.mem_iff]
    exact hc.indexed i p
  · rename_i hj
    exact consistent_pushBack (consistent_evictOldest hc) now (evictOldest_index_none hj)

/-- Remembering acts on the entries as the bounded recency insertion. -/
theorem entries_remember {c : ReplayCache} (hc : c.Consistent) (j : String) (now : Int) :
    (c.remember j now).entries = Recency.touch c.capacity c.entries j now := by
  have hkeys : j ∈ Recency.keys c.entries ↔ c.index j ≠ none := by
    have hl := hc.lookup_entries j
    rw [← not_iff_not, ← Recency.lookup_eq_none, hl]
    simp
  unfold remember Recency.touch
  split
  · rename_i el hel
    obtain ⟨hmem, hjob⟩ := (hc.indexed j el).mp hel
    rw [if_pos (hkeys.mpr (by simp [hel]))]
    simp only [entries, List.map_append, List.map_cons, List.map_nil, Function.update_self,
      Recency.forget, hjob]
    congr 1
    rw [hc.nodup.erase_eq_filter, List.filter_map]
    have hfilter : c.order.filter (· != el) =
        c.order.filter ((fun e : String × Int => decide (e.1 ≠ j)) ∘
          fun p => ((c.heap p).jobID, (c.heap p).observedAt)) := by
      apply List.filter_congr
      intro p hp
      by_cases hpe : p = el
      · simp [hpe, hjob]
      · have hne : (c.heap p).jobID ≠ j := fun h =>
          hpe (hc.jobID_injOn hp hmem (h.trans hjob.symm))
        simp [hpe, hne]
    rw [← hfilter]
    apply List.map_congr_left
    intro p hp
    have hne : p ≠ el := by simpa using (List.mem_filter.mp hp).2
    rw [Function.update_of_ne hne]
  · rename_i hj
    rw [if_neg (by simp [hkeys, hj]), entries_pushBack (consistent_evictOldest hc),
      entries_evictOldest]

@[simp] theorem remember_capacity (c : ReplayCache) (j : String) (now : Int) :
    (c.remember j now).capacity = c.capacity := by
  unfold remember evictOldest pushBack
  repeat' split
  all_goals rfl

@[simp] theorem remember_ttl (c : ReplayCache) (j : String) (now : Int) :
    (c.remember j now).ttl = c.ttl := by
  unfold remember evictOldest pushBack
  repeat' split
  all_goals rfl

/-- What the purge loop does from any point of the list on. -/
theorem purgeFrom_spec {c : ReplayCache} {cutoff : Int} {l : List Nat}
    (hc : { c with order := l }.Consistent) :
    (c.purgeFrom cutoff l).Consistent ∧ (c.purgeFrom cutoff l).heap = c.heap ∧
      (c.purgeFrom cutoff l).capacity = c.capacity ∧ (c.purgeFrom cutoff l).ttl = c.ttl ∧
      (c.purgeFrom cutoff l).order =
        l.dropWhile fun p => decide ((c.heap p).observedAt ≤ cutoff) := by
  induction l generalizing c with
  | nil => exact ⟨hc, rfl, rfl, rfl, rfl⟩
  | cons front rest ih =>
      unfold purgeFrom
      split
      · rename_i hyoung
        have hnot : ¬ (c.heap front).observedAt ≤ cutoff := by omega
        exact ⟨hc, rfl, rfl, rfl, by simp [hnot]⟩
      · rename_i hold
        have hle : (c.heap front).observedAt ≤ cutoff := by omega
        obtain ⟨h₁, h₂, h₃, h₄, h₅⟩ := ih (c := { c with
          index := Function.update c.index (c.heap front).jobID none }) hc.dropFront
        exact ⟨h₁, h₂, h₃, h₄, by simpa [hle] using h₅⟩

theorem consistent_purge {c : ReplayCache} (hc : c.Consistent) (now : Int) :
    (c.purge now).Consistent :=
  (purgeFrom_spec (c := c) hc).1

theorem purge_capacity {c : ReplayCache} (hc : c.Consistent) (now : Int) :
    (c.purge now).capacity = c.capacity :=
  (purgeFrom_spec (c := c) hc).2.2.1

theorem purge_ttl {c : ReplayCache} (hc : c.Consistent) (now : Int) :
    (c.purge now).ttl = c.ttl :=
  (purgeFrom_spec (c := c) hc).2.2.2.1

/-- The purge acts on the entries as expiry of everything at least one time to
live old. -/
theorem entries_purge {c : ReplayCache} (hc : c.Consistent) (now : Int) :
    (c.purge now).entries = Recency.expire (fun t => decide (t ≤ now - c.ttl)) c.entries := by
  have hheap : (c.purge now).heap = c.heap := (purgeFrom_spec (c := c) hc).2.1
  have horder : (c.purge now).order =
      c.order.dropWhile fun p => decide ((c.heap p).observedAt ≤ now - c.ttl) :=
    (purgeFrom_spec (c := c) hc).2.2.2.2
  simp only [entries, hheap, horder, Recency.expire, List.dropWhile_map]
  rfl

end ReplayCache

end PmxAgents.Shared

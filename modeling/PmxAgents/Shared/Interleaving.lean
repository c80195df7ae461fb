import PmxAgents.Lib.Runs
import PmxAgents.Shared.ReplayWindow

/-!
# Concurrent verifications on one cache

A reconnect can leave an old read loop running beside a new one, so calls of the
verification overlap. Each of them takes the cache lock twice, once to look the
job id up and once to record it, and the purge takes it in the background. The
system interleaves these locked steps in any order; a read loop whose call
returned nil then dispatches the envelope.

Looking up and recording are separate steps: two calls for one job id can both
look it up before either records it. The runs in which that never happens accept
every job id at most once.

## Implementation notes

`remembered` and `dispatched` are histories. No step reads them.
-/

namespace PmxAgents.Shared

open Lib Lib.Runs

/-- Where a call stands between its steps. -/
inductive Phase where
  | entered
  | checked
  | unseen
  | returned (result : Except VerifyError Unit)
  | dispatched

/-- The replay check of the call found its job id unseen. -/
def Phase.Passed : Phase → Prop
  | .unseen => True
  | .returned (.ok ()) => True
  | .dispatched => True
  | _ => False

/-- The call returned nil. -/
def Phase.Accepted : Phase → Prop
  | .returned (.ok ()) => True
  | .dispatched => True
  | _ => False

theorem Phase.Accepted.passed {p : Phase} (h : p.Accepted) : p.Passed := by
  unfold Phase.Accepted at h
  split at h <;> trivial

theorem Phase.Passed.cases {p : Phase} (h : p.Passed) : p = .unseen ∨ p.Accepted := by
  unfold Phase.Passed at h
  split at h
  · exact Or.inl rfl
  · exact Or.inr trivial
  · exact Or.inr trivial
  · exact h.elim

/-- A call in progress. -/
structure Thread where
  call : Call
  phase : Phase

/-- The job id a thread works on. -/
def Thread.jobID (t : Thread) : String := t.call.env.jobID

/-- The shared cache and the calls on it, in the order they were made. -/
structure System where
  cache : ReplayCache
  calls : List Thread
  remembered : List String
  dispatched : List String

/-- A fresh cache and no calls. -/
def System.init (capacity : Nat) (ttl : Int) : System := ⟨.new capacity ttl, [], [], []⟩

inductive Action where
  | enter (c : Call)
  | check (i : Nat) (start : Int) (keys : Nat → Int)
  | seen (i : Nat) (now : Int)
  | remember (i : Nat) (now : Int)
  | purge (now : Int)
  | dispatch (i : Nat)

/-- The readings the cache takes lie in one window of length `ttl`. -/
def Action.InWindow (t₀ ttl : Int) : Action → Prop
  | .seen _ now => t₀ ≤ now ∧ now < t₀ + ttl
  | .remember _ now => t₀ ≤ now ∧ now < t₀ + ttl
  | .purge now => t₀ ≤ now ∧ now < t₀ + ttl
  | _ => True

namespace System

def setPhase (s : System) (i : Nat) (c : Call) (p : Phase) : System :=
  { s with calls := s.calls.set i ⟨c, p⟩ }

/-- One step of one call, of the purge or of a read loop. -/
def step (L : Libs) (s : System) : Action → Option System
  | .enter c => some { s with calls := s.calls ++ [⟨c, .entered⟩] }
  | .check i start keys =>
      match s.calls[i]? with
      | some ⟨c, .entered⟩ =>
          match c.check L start keys with
          | .ok () => some (s.setPhase i c .checked)
          | .error err => some (s.setPhase i c (.returned (.error err)))
      | _ => none
  | .seen i now =>
      match s.calls[i]? with
      | some ⟨c, .checked⟩ =>
          if s.cache.seen c.env.jobID now then
            some (s.setPhase i c (.returned (.error (.replay c.env.jobID))))
          else some (s.setPhase i c .unseen)
      | _ => none
  | .remember i now =>
      match s.calls[i]? with
      | some ⟨c, .unseen⟩ =>
          some { s.setPhase i c (.returned (.ok ())) with
            cache := s.cache.remember c.env.jobID now
            remembered := c.env.jobID :: s.remembered }
      | _ => none
  | .purge now => some { s with cache := s.cache.purge now }
  | .dispatch i =>
      match s.calls[i]? with
      | some ⟨c, .returned (.ok ())⟩ =>
          some { s.setPhase i c .dispatched with dispatched := c.env.jobID :: s.dispatched }
      | _ => none

/-- No other call for the same job id is between its lookup and its recording
when a call looks its job id up. -/
def Alone (s : System) : Action → Prop
  | .seen i _ =>
      ∀ t, s.calls[i]? = some t →
        ∀ k u, k ≠ i → s.calls[k]? = some u → u.phase = .unseen → u.jobID ≠ t.jobID
  | _ => True

/-- Everything one step can do. -/
theorem step_cases {L : Libs} {s s' : System} {a : Action} (h : s.step L a = some s') :
    (∃ c, s' = { s with calls := s.calls ++ [⟨c, .entered⟩] }) ∨
    (∃ i c q p, s.calls[i]? = some ⟨c, q⟩ ∧ ¬ p.Passed ∧ s' = s.setPhase i c p ∧ ¬ q.Passed) ∨
    (∃ i now c, a = .seen i now ∧ s.calls[i]? = some ⟨c, .checked⟩ ∧
      s.cache.seen c.env.jobID now = false ∧ s' = s.setPhase i c .unseen) ∨
    (∃ i now c, a = .remember i now ∧ s.calls[i]? = some ⟨c, .unseen⟩ ∧
      s' = { s.setPhase i c (.returned (.ok ())) with
        cache := s.cache.remember c.env.jobID now
        remembered := c.env.jobID :: s.remembered }) ∨
    (∃ now, a = .purge now ∧ s' = { s with cache := s.cache.purge now }) ∨
    (∃ i c, s.calls[i]? = some ⟨c, .returned (.ok ())⟩ ∧
      s' = { s.setPhase i c .dispatched with dispatched := c.env.jobID :: s.dispatched }) := by
  cases a with
  | enter c => exact Or.inl ⟨c, (Option.some.inj h).symm⟩
  | check i start keys =>
      refine Or.inr (Or.inl ?_)
      simp only [step] at h
      split at h
      · rename_i c hi
        split at h
        · exact ⟨i, c, _, .checked, hi, id, (Option.some.inj h).symm, id⟩
        · exact ⟨i, c, _, _, hi, id, (Option.some.inj h).symm, id⟩
      · cases h
  | seen i now =>
      simp only [step] at h
      split at h
      · rename_i c hi
        split at h
        · exact Or.inr (Or.inl ⟨i, c, _, _, hi, id, (Option.some.inj h).symm, id⟩)
        · rename_i hseen
          exact Or.inr (Or.inr (Or.inl
            ⟨i, now, c, rfl, hi, by simpa using hseen, (Option.some.inj h).symm⟩))
      · cases h
  | remember i now =>
      simp only [step] at h
      split at h
      · rename_i c hi
        exact Or.inr (Or.inr (Or.inr (Or.inl ⟨i, now, c, rfl, hi, (Option.some.inj h).symm⟩)))
      · cases h
  | purge now =>
      exact Or.inr (Or.inr (Or.inr (Or.inr (Or.inl ⟨now, rfl, (Option.some.inj h).symm⟩))))
  | dispatch i =>
      simp only [step] at h
      split at h
      · rename_i c hi
        exact Or.inr (Or.inr (Or.inr (Or.inr (Or.inr ⟨i, c, hi, (Option.some.inj h).symm⟩))))
      · cases h

/-! ## Which calls work on a job id -/

/-- Call `i` works on the job id and its phase satisfies `P`. -/
def At (calls : List Thread) (P : Phase → Prop) (j : String) (i : Nat) : Prop :=
  ∃ t, calls[i]? = some t ∧ t.jobID = j ∧ P t.phase

theorem At.mono {calls : List Thread} {P Q : Phase → Prop} {j : String} {i : Nat}
    (h : At calls P j i) (hPQ : ∀ p, P p → Q p) : At calls Q j i := by
  obtain ⟨t, ht, hj, hp⟩ := h
  exact ⟨t, ht, hj, hPQ _ hp⟩

theorem At.of_enter {calls : List Thread} {P : Phase → Prop} {j : String} {k : Nat} {c : Call}
    (h : At (calls ++ [⟨c, .entered⟩]) P j k) (hP : ¬ P .entered) : At calls P j k := by
  obtain ⟨t, ht, hj, hp⟩ := h
  rw [List.getElem?_append] at ht
  split at ht
  · exact ⟨t, ht, hj, hp⟩
  · rw [List.getElem?_singleton] at ht
    split at ht
    · obtain rfl := Option.some.inj ht
      exact absurd hp hP
    · cases ht

theorem At.of_set {calls : List Thread} {P : Phase → Prop} {j : String} {i k : Nat} {c : Call}
    {p : Phase} (h : At (calls.set i ⟨c, p⟩) P j k) :
    (k = i ∧ c.env.jobID = j ∧ P p) ∨ (k ≠ i ∧ At calls P j k) := by
  obtain ⟨t, ht, hj, hp⟩ := h
  by_cases hk : k = i
  · subst hk
    rw [List.getElem?_set_self'] at ht
    cases hold : calls[k]? with
    | none => simp [hold] at ht
    | some old =>
        obtain rfl : (⟨c, p⟩ : Thread) = t := by simpa [hold] using ht
        exact Or.inl ⟨rfl, hj, hp⟩
  · rw [List.getElem?_set_ne (Ne.symm hk)] at ht
    exact Or.inr ⟨hk, t, ht, hj, hp⟩

/-- A phase change that does not newly reach `P` adds no call with `P`. -/
theorem At.of_set_imp {calls : List Thread} {P : Phase → Prop} {j : String} {i k : Nat}
    {c : Call} {p q : Phase} (h : At (calls.set i ⟨c, p⟩) P j k)
    (hi : calls[i]? = some ⟨c, q⟩) (himp : P p → P q) : At calls P j k := by
  rcases h.of_set with ⟨rfl, hj, hp⟩ | ⟨_, h⟩
  · exact ⟨_, hi, hj, himp hp⟩
  · exact h

/-- A phase change of a call without `P` keeps every call with `P`. -/
theorem At.set {calls : List Thread} {P : Phase → Prop} {j : String} {i k : Nat} {c : Call}
    {p q : Phase} (h : At calls P j k) (hi : calls[i]? = some ⟨c, q⟩) (hq : ¬ P q) :
    At (calls.set i ⟨c, p⟩) P j k := by
  obtain ⟨t, ht, hj, hp⟩ := h
  have hne : i ≠ k := by
    rintro rfl
    obtain rfl := Option.some.inj (hi.symm.trans ht)
    exact hq hp
  exact ⟨t, by rw [List.getElem?_set_ne hne, ht], hj, hp⟩

/-! ## The invariant -/

/-- Fewer job ids than the capacity have been recorded. -/
def Room (capacity : Nat) (s : System) : Prop := s.remembered.dedup.length < capacity

/-- What holds while no two calls look one job id up at the same time. -/
structure Inv (capacity : Nat) (ttl t₀ : Int) (s : System) : Prop where
  sound : Sound capacity ttl s.cache
  keys_remembered : ∀ j ∈ Recency.keys s.cache.entries, j ∈ s.remembered
  exclusive : s.Room capacity → ∀ j i k,
    At s.calls Phase.Passed j i → At s.calls Phase.Passed j k → i = k
  held : s.Room capacity → ∀ j i, At s.calls Phase.Accepted j i →
    ∃ t, t₀ ≤ t ∧ s.cache.entries.lookup j = some t
  dispatched_at : ∀ j ∈ s.dispatched, ∃ i, At s.calls (· = .dispatched) j i
  dispatched_nodup : s.Room capacity → s.dispatched.Nodup

theorem inv_init (capacity : Nat) (ttl t₀ : Int) : Inv capacity ttl t₀ (init capacity ttl) where
  sound := sound_new capacity ttl
  keys_remembered := by simp [init]
  exclusive := by simp [init, At]
  held := by simp [init, At]
  dispatched_at := by simp [init]
  dispatched_nodup := by simp [init]

section Step
variable {capacity : Nat} {ttl t₀ : Int} {s : System}

/-- Recording one more job id needs more room. -/
theorem Room.of_cons {calls : List Thread} {cache : ReplayCache} {j : String}
    {dispatched : List String}
    (h : Room capacity ⟨cache, calls, j :: s.remembered, dispatched⟩) : s.Room capacity := by
  refine lt_of_le_of_lt ?_ h
  apply (List.subperm_of_subset (List.nodup_dedup _) _).length_le
  intro i hi
  rw [List.mem_dedup] at hi ⊢
  exact List.mem_cons_of_mem _ hi

/-- With room left no recorded job id is evicted. -/
theorem Inv.length_lt (h : Inv capacity ttl t₀ s) (hroom : s.Room capacity) :
    s.cache.entries.length < capacity := by
  refine lt_of_le_of_lt ?_ hroom
  rw [← Recency.length_keys]
  apply (List.subperm_of_subset h.sound.consistent.nodup_keys _).length_le
  intro j hj
  exact List.mem_dedup.mpr (h.keys_remembered j hj)

/-- A phase change away from the replay check keeps the invariant when it neither
reaches `Passed` nor leaves it. -/
theorem Inv.setPhase (h : Inv capacity ttl t₀ s) {i : Nat} {c : Call} {p q : Phase}
    (hi : s.calls[i]? = some ⟨c, q⟩) (hp : ¬ p.Passed) (hq : ¬ q.Passed) :
    Inv capacity ttl t₀ (s.setPhase i c p) where
  sound := h.sound
  keys_remembered := h.keys_remembered
  exclusive := fun hroom j k l hk hl =>
    h.exclusive hroom j k l (hk.of_set_imp hi fun hpass => absurd hpass hp)
      (hl.of_set_imp hi fun hpass => absurd hpass hp)
  held := fun hroom j k hk =>
    h.held hroom j k (hk.of_set_imp hi fun hacc => absurd hacc.passed hp)
  dispatched_at := by
    intro j hj
    obtain ⟨k, hk⟩ := h.dispatched_at j hj
    exact ⟨k, hk.set hi fun hdis => hq (hdis ▸ trivial)⟩
  dispatched_nodup := h.dispatched_nodup

/-- A lookup that finds the job id unseen makes the call the only one past its
replay check. -/
theorem Inv.seen (h : Inv capacity ttl t₀ s) {i : Nat} {now : Int} {c : Call}
    (hi : s.calls[i]? = some ⟨c, .checked⟩) (hunseen : s.cache.seen c.env.jobID now = false)
    (hwindow : now < t₀ + ttl) (halone : s.Alone (.seen i now)) :
    Inv capacity ttl t₀ (s.setPhase i c .unseen) where
  sound := h.sound
  keys_remembered := h.keys_remembered
  exclusive := by
    intro hroom j k l hk hl
    have hothers : ∀ m, m ≠ i → ¬ At s.calls Phase.Passed c.env.jobID m := by
      rintro m hm ⟨t, ht, htj, htp⟩
      rcases htp.cases with hun | hacc
      · exact halone _ hi m t hm ht hun htj
      · obtain ⟨u, hu, hlookup⟩ := h.held hroom _ m ⟨t, ht, htj, hacc⟩
        rw [ReplayCache.seen_eq h.sound.consistent, hlookup, h.sound.ttl_eq] at hunseen
        simp only [decide_eq_false_iff_not] at hunseen
        omega
    rcases hk.of_set with ⟨hki, hkj, _⟩ | ⟨hki, hk'⟩ <;>
      rcases hl.of_set with ⟨hli, hlj, _⟩ | ⟨hli, hl'⟩
    · rw [hki, hli]
    · exact absurd (hkj ▸ hl') (hothers l hli)
    · exact absurd (hlj ▸ hk') (hothers k hki)
    · exact h.exclusive hroom j k l hk' hl'
  held := fun hroom j k hk => h.held hroom j k (hk.of_set_imp hi fun hacc => hacc.elim)
  dispatched_at := by
    intro j hj
    obtain ⟨k, hk⟩ := h.dispatched_at j hj
    exact ⟨k, hk.set hi nofun⟩
  dispatched_nodup := h.dispatched_nodup

/-- Recording makes the job id of the call held, and with room left it evicts no
other held job id. -/
theorem Inv.remember (h : Inv capacity ttl t₀ s) {i : Nat} {now : Int} {c : Call}
    (hi : s.calls[i]? = some ⟨c, .unseen⟩) (hwindow : t₀ ≤ now) :
    Inv capacity ttl t₀
      { s.setPhase i c (.returned (.ok ())) with
        cache := s.cache.remember c.env.jobID now
        remembered := c.env.jobID :: s.remembered } where
  sound := h.sound.remember _ _
  keys_remembered := by
    intro j hj
    simp only [ReplayCache.entries_remember h.sound.consistent] at hj
    rcases Recency.mem_keys_touch hj with rfl | hj
    · simp
    · exact List.mem_cons_of_mem _ (h.keys_remembered j hj)
  exclusive := fun hroom j k l hk hl =>
    h.exclusive hroom.of_cons j k l (hk.of_set_imp hi fun _ => trivial)
      (hl.of_set_imp hi fun _ => trivial)
  held := by
    intro hroom j k hk
    simp only [ReplayCache.entries_remember h.sound.consistent]
    rcases hk.of_set with ⟨_, rfl, _⟩ | ⟨hki, hk'⟩
    · exact ⟨now, hwindow, Recency.lookup_touch_self _ _ _ _⟩
    · obtain ⟨t, ht, hlookup⟩ := h.held hroom.of_cons j k hk'
      have hne : j ≠ c.env.jobID := by
        rintro rfl
        exact hki (h.exclusive hroom.of_cons _ k i (hk'.mono fun _ hp => hp.passed)
          ⟨_, hi, rfl, trivial⟩)
      refine ⟨t, ht, ?_⟩
      rw [Recency.lookup_touch_ne hne (Or.inr ?_), hlookup]
      rw [h.sound.capacity_eq]
      exact h.length_lt hroom.of_cons
  dispatched_at := by
    intro j hj
    obtain ⟨k, hk⟩ := h.dispatched_at j hj
    exact ⟨k, hk.set hi nofun⟩
  dispatched_nodup := fun hroom => h.dispatched_nodup hroom.of_cons

/-- Inside the window the purge drops no held job id. -/
theorem Inv.purge (h : Inv capacity ttl t₀ s) {now : Int} (hwindow : now < t₀ + ttl) :
    Inv capacity ttl t₀ { s with cache := s.cache.purge now } where
  sound := h.sound.purge now
  keys_remembered := by
    intro j hj
    simp only [ReplayCache.entries_purge h.sound.consistent] at hj
    exact h.keys_remembered j
      (((Recency.expire_suffix _ _).sublist.map Prod.fst).subset hj)
  exclusive := h.exclusive
  held := by
    intro hroom j k hk
    obtain ⟨t, ht, hlookup⟩ := h.held hroom j k hk
    refine ⟨t, ht, ?_⟩
    simp only [ReplayCache.entries_purge h.sound.consistent]
    apply Recency.lookup_expire hlookup
    simp only [h.sound.ttl_eq, decide_eq_false_iff_not]
    omega
  dispatched_at := h.dispatched_at
  dispatched_nodup := h.dispatched_nodup

/-- A dispatch follows the only accepted call of its job id. -/
theorem Inv.dispatch (h : Inv capacity ttl t₀ s) {i : Nat} {c : Call}
    (hi : s.calls[i]? = some ⟨c, .returned (.ok ())⟩) :
    Inv capacity ttl t₀
      { s.setPhase i c .dispatched with dispatched := c.env.jobID :: s.dispatched } where
  sound := h.sound
  keys_remembered := h.keys_remembered
  exclusive := fun hroom j k l hk hl =>
    h.exclusive hroom j k l (hk.of_set_imp hi fun _ => trivial)
      (hl.of_set_imp hi fun _ => trivial)
  held := fun hroom j k hk => h.held hroom j k (hk.of_set_imp hi fun _ => trivial)
  dispatched_at := by
    intro j hj
    rcases List.mem_cons.mp hj with rfl | hj
    · have hlt : i < s.calls.length := (List.getElem?_eq_some_iff.mp hi).1
      exact ⟨i, ⟨c, .dispatched⟩, by simp [System.setPhase, hlt], rfl, rfl⟩
    · obtain ⟨k, hk⟩ := h.dispatched_at j hj
      exact ⟨k, hk.set hi nofun⟩
  dispatched_nodup := by
    intro hroom
    refine List.nodup_cons.mpr ⟨?_, h.dispatched_nodup hroom⟩
    intro hmem
    obtain ⟨k, hk⟩ := h.dispatched_at _ hmem
    have hki : k = i := h.exclusive hroom _ k i (hk.mono fun _ hp => hp ▸ trivial)
      ⟨_, hi, rfl, trivial⟩
    obtain ⟨t, ht, _, htp⟩ := hk
    rw [hki, hi] at ht
    obtain rfl := Option.some.inj ht
    cases htp

theorem Inv.enter (h : Inv capacity ttl t₀ s) (c : Call) :
    Inv capacity ttl t₀ { s with calls := s.calls ++ [⟨c, .entered⟩] } where
  sound := h.sound
  keys_remembered := h.keys_remembered
  exclusive := fun hroom j k l hk hl =>
    h.exclusive hroom j k l (hk.of_enter id) (hl.of_enter id)
  held := fun hroom j k hk => h.held hroom j k (hk.of_enter id)
  dispatched_at := by
    intro j hj
    obtain ⟨k, t, ht, htj, htp⟩ := h.dispatched_at j hj
    have hlt : k < s.calls.length := (List.getElem?_eq_some_iff.mp ht).1
    exact ⟨k, t, by rw [List.getElem?_append_left hlt, ht], htj, htp⟩
  dispatched_nodup := h.dispatched_nodup

/-- Every step inside the window whose lookup is alone keeps the invariant. -/
theorem Inv.step (h : Inv capacity ttl t₀ s) {L : Libs} {a : Action} {s' : System}
    (hok : s.Alone a ∧ a.InWindow t₀ ttl) (hstep : s.step L a = some s') :
    Inv capacity ttl t₀ s' := by
  obtain ⟨halone, hwindow⟩ := hok
  rcases step_cases hstep with ⟨c, rfl⟩ | ⟨i, c, q, p, hi, hp, rfl, hq⟩ |
    ⟨i, now, c, rfl, hi, hunseen, rfl⟩ | ⟨i, now, c, rfl, hi, rfl⟩ | ⟨now, rfl, rfl⟩ |
    ⟨i, c, hi, rfl⟩
  · exact h.enter c
  · exact h.setPhase hi hp hq
  · exact h.seen hi hunseen hwindow.2 halone
  · exact h.remember hi hwindow.1
  · exact h.purge hwindow.2
  · exact h.dispatch hi

end Step

/-- At most one call for a job id returned nil, and no job id was dispatched twice. -/
def AcceptedOnce (s : System) : Prop :=
  (∀ (i k : Nat) (t u : Thread), s.calls[i]? = some t → s.calls[k]? = some u →
    t.jobID = u.jobID → t.phase.Accepted → u.phase.Accepted → i = k) ∧
  ∀ j, s.dispatched.count j ≤ 1

/-- In every run whose cache readings lie in one window, with fewer job ids
recorded than the capacity, and in which no call looks a job id up while another
is about to record it, at most one call for a job id returns nil and the job id
is dispatched at most once. -/
theorem at_most_one_accepted (L : Libs) (capacity : Nat) (ttl t₀ : Int) (acts : List Action)
    (s : System) (hrun : exec (step L) (init capacity ttl) acts = some s)
    (hwindow : ∀ a ∈ acts, a.InWindow t₀ ttl)
    (hroom : s.remembered.dedup.length < capacity)
    (halone : Admits (step L) Alone (init capacity ttl) acts) :
    s.AcceptedOnce := by
  have hinv : Inv capacity ttl t₀ s :=
    exec_invariant (fun _ _ _ h hok hstep => h.step hok hstep) (inv_init capacity ttl t₀)
      (halone.and (admits_of_forall hwindow)) hrun
  constructor
  · intro i k t u ht hu hjob hacc hacc'
    exact hinv.exclusive hroom u.jobID i k ⟨t, ht, hjob, hacc.passed⟩ ⟨u, hu, rfl, hacc'.passed⟩
  · exact fun j => List.nodup_iff_count_le_one.mp (hinv.dispatched_nodup hroom) j

/-- Two read loops receive the same envelope; the second call is checked while the first is about to
record the job id, and looks it up after that. -/
def retriedRun : List Action :=
  [.enter (echoCall "job" 0 hour), .check 0 0 fun _ => 0, .enter (echoCall "job" 0 hour),
   .seen 0 0, .check 1 0 fun _ => 0, .remember 0 0, .seen 1 1, .purge 2, .dispatch 0]

/-- Two read loops receive the same envelope; both look the job id up before
either records it. -/
def overlappingRun : List Action :=
  [.enter (echoCall "job" 0 hour), .enter (echoCall "job" 0 hour),
   .check 0 0 fun _ => 0, .check 1 0 fun _ => 0, .seen 0 0, .seen 1 0,
   .remember 0 0, .remember 1 0, .dispatch 0, .dispatch 1]

theorem alone_of_phases {s : System} {i : Nat} {now : Int} (l : List Phase)
    (hl : s.calls.map Thread.phase = l) (h : .unseen ∉ l) : s.Alone (.seen i now) := by
  intro t _ k u _ hu hunseen
  have hmem : u.phase ∈ l := hl ▸ List.mem_map_of_mem (List.mem_of_getElem? hu)
  exact absurd (hunseen ▸ hmem) h

/-- The second call is refused, and the job is dispatched once. -/
theorem at_most_one_accepted_retried :
    ∃ s, exec (step echoLibs) (init 2 hour) retriedRun = some s ∧
      s.calls.map Thread.phase = [.dispatched, .returned (.error (.replay "job"))] ∧
      s.dispatched = ["job"] ∧ s.AcceptedOnce := by
  refine ⟨_, rfl, rfl, rfl,
    at_most_one_accepted echoLibs 2 hour 0 retriedRun _ rfl ?_ (by decide) ?_⟩
  · simp [retriedRun, Action.InWindow, hour, second]
  · exact admits_cons trivial rfl (admits_cons trivial rfl (admits_cons trivial rfl
      (admits_cons (alone_of_phases [.checked, .entered] rfl (by simp)) rfl
        (admits_cons trivial rfl (admits_cons trivial rfl
          (admits_cons (alone_of_phases [.returned (.ok ()), .checked] rfl (by simp)) rfl
            (admits_cons trivial rfl (admits_cons trivial rfl trivial))))))))

/-- Both calls of the overlapping run return nil and the job is dispatched twice,
although the clock stands still and one job id is recorded. -/
theorem overlappingRun_accepted_twice :
    ∃ s, exec (step echoLibs) (init 2 hour) overlappingRun = some s ∧
      (∀ a ∈ overlappingRun, a.InWindow 0 hour) ∧ s.remembered.dedup.length < 2 ∧
      s.dispatched = ["job", "job"] ∧ ¬ s.AcceptedOnce := by
  refine ⟨_, rfl, ?_, by decide, rfl, ?_⟩
  · simp [overlappingRun, Action.InWindow, hour, second]
  · intro h
    exact absurd (h.1 0 1 _ _ rfl rfl rfl trivial trivial) (by decide)

end System

end PmxAgents.Shared

import PmxAgents.Shared.Envelope

/-!
# Replay protection over sequential runs

Calls of the verification and purges follow each other on one cache. The replay
check protects an accepted envelope for one time to live, and the expiry check
rejects it after that, provided the envelope expires in time. The lifetime cap
alone does not give this: it bounds the distance from `issuedAt`, which is never
compared with the clock.
-/

namespace PmxAgents.Shared

open Lib

/-- What can happen on the cache: a verification or a tick of the purge. -/
inductive Event where
  | verify (c : Call) (clock : Call.Clock)
  | purge (now : Int)

namespace Event

/-- The first clock reading of an event. -/
def first : Event → Int
  | .verify _ clock => clock.start
  | .purge now => now

/-- The last clock reading of an event. -/
def last : Event → Int
  | .verify _ clock => clock.remember
  | .purge now => now

/-- All readings of one event are taken before those of the other. -/
def Precedes (a b : Event) : Prop := a.last ≤ b.first

/-- The cache after the event. -/
def apply (L : Libs) (cache : ReplayCache) : Event → ReplayCache
  | .verify c clock => (c.verify L clock cache).2
  | .purge now => cache.purge now

/-- The job id the event records, if any. -/
def remembers (L : Libs) (cache : ReplayCache) : Event → List String
  | .verify c clock =>
      match (c.verify L clock cache).1 with
      | .ok () => [c.env.jobID]
      | .error _ => []
  | .purge _ => []

theorem first_le_last (ev : Event) : ev.first ≤ ev.last := by
  cases ev with
  | verify c clock => exact clock.start_le_seen.trans clock.seen_le_remember
  | purge now => exact le_refl now

/-- An event records a job id, purges, or leaves the cache as it was. -/
theorem apply_cases (L : Libs) (cache : ReplayCache) (ev : Event) :
    (∃ j, ev.remembers L cache = [j] ∧ ev.apply L cache = cache.remember j ev.last) ∨
      (ev.remembers L cache = [] ∧
        (ev.apply L cache = cache ∨ ev.apply L cache = cache.purge ev.last)) := by
  cases ev with
  | verify c clock =>
      rcases c.verify_cache L clock cache with ⟨hacc, hcache⟩ | ⟨hrej, hcache⟩
      · have hres : (c.verify L clock cache).1 = .ok () := hacc
        exact Or.inl ⟨c.env.jobID, by simp [remembers, hres], hcache⟩
      · refine Or.inr ⟨?_, Or.inl hcache⟩
        simp only [remembers]
        split
        · rename_i hres
          exact absurd hres hrej
        · rfl
  | purge now => exact Or.inr ⟨rfl, Or.inr rfl⟩

end Event

/-- The cache after a sequence of events. -/
def run (L : Libs) (cache : ReplayCache) (events : List Event) : ReplayCache :=
  events.foldl (Event.apply L) cache

/-- The job ids recorded by a sequence of events, latest first. -/
def remembered (L : Libs) : ReplayCache → List Event → List String
  | _, [] => []
  | cache, ev :: rest => remembered L (ev.apply L cache) rest ++ ev.remembers L cache

theorem run_append (L : Libs) (cache : ReplayCache) (before after : List Event) :
    run L cache (before ++ after) = run L (run L cache before) after := by
  simp [run]

/-- A consistent cache with the configured capacity and time to live. -/
structure Sound (capacity : Nat) (ttl : Int) (cache : ReplayCache) : Prop where
  consistent : cache.Consistent
  capacity_eq : cache.capacity = capacity
  ttl_eq : cache.ttl = ttl

theorem sound_new (capacity : Nat) (ttl : Int) :
    Sound capacity ttl (ReplayCache.new capacity ttl) :=
  ⟨ReplayCache.consistent_new capacity ttl, rfl, rfl⟩

section Sound
variable {capacity : Nat} {ttl : Int} {cache : ReplayCache}

theorem Sound.remember (h : Sound capacity ttl cache) (j : String) (now : Int) :
    Sound capacity ttl (cache.remember j now) :=
  ⟨ReplayCache.consistent_remember h.consistent j now, by simp [h.capacity_eq],
    by simp [h.ttl_eq]⟩

theorem Sound.purge (h : Sound capacity ttl cache) (now : Int) :
    Sound capacity ttl (cache.purge now) :=
  ⟨ReplayCache.consistent_purge h.consistent now,
    (ReplayCache.purge_capacity h.consistent now).trans h.capacity_eq,
    (ReplayCache.purge_ttl h.consistent now).trans h.ttl_eq⟩

theorem Sound.apply (h : Sound capacity ttl cache) (L : Libs) (ev : Event) :
    Sound capacity ttl (ev.apply L cache) := by
  rcases ev.apply_cases L cache with ⟨j, _, heq⟩ | ⟨_, heq | heq⟩
  · rw [heq]
    exact h.remember j ev.last
  · rw [heq]
    exact h
  · rw [heq]
    exact h.purge ev.last

theorem Sound.run (h : Sound capacity ttl cache) (L : Libs) (events : List Event) :
    Sound capacity ttl (run L cache events) := by
  induction events generalizing cache with
  | nil => exact h
  | cons ev rest ih => exact ih (h.apply L ev)

/-- The cache holds the job id since `t₀` or later, with only the listed job ids
recorded after it. -/
def Holds (t₀ : Int) (since : List String) (j : String) (cache : ReplayCache) : Prop :=
  ∃ t, t₀ ≤ t ∧ Recency.Behind since j t cache.entries

/-- A held job id is seen until a full time to live after `t₀`. -/
theorem Holds.seen {t₀ now : Int} {since : List String} {j : String}
    (h : Holds t₀ since j cache) (hs : Sound capacity ttl cache) (hnow : now < t₀ + ttl) :
    cache.seen j now = true := by
  obtain ⟨t, ht, hb⟩ := h
  rw [ReplayCache.seen_eq hs.consistent, hb.lookup]
  simp only [hs.ttl_eq, decide_eq_true_eq]
  omega

theorem Holds.of_remember {t₀ now : Int} (hs : Sound capacity ttl cache) (since : List String)
    (j : String) (hnow : t₀ ≤ now) : Holds t₀ since j (cache.remember j now) := by
  refine ⟨now, hnow, ?_⟩
  rw [ReplayCache.entries_remember hs.consistent]
  exact Recency.behind_touch_self _ _ _ _ _

/-- Recording a job id keeps a held one, as long as the cache is larger than the number of job
ids recorded since. -/
theorem Holds.remember {t₀ now : Int} {since : List String} {i j : String}
    (h : Holds t₀ since j cache) (hs : Sound capacity ttl cache) (hnow : t₀ ≤ now)
    (hroom : (i :: since).dedup.length < capacity) :
    Holds t₀ (i :: since) j (cache.remember i now) := by
  by_cases hij : i = j
  · rw [hij]
    exact Holds.of_remember hs _ j hnow
  · obtain ⟨t, ht, hb⟩ := h
    refine ⟨t, ht, ?_⟩
    rw [ReplayCache.entries_remember hs.consistent, hs.capacity_eq]
    exact hb.touch_ne hs.consistent.nodup_keys hij hroom

/-- One event inside the window keeps a held job id, with the same room. -/
theorem Holds.apply {t₀ : Int} {since : List String} {j : String} {L : Libs} {ev : Event}
    (h : Holds t₀ since j cache) (hs : Sound capacity ttl cache)
    (hafter : t₀ ≤ ev.last) (hbefore : ev.last < t₀ + ttl)
    (hroom : (ev.remembers L cache ++ since).dedup.length < capacity) :
    Holds t₀ (ev.remembers L cache ++ since) j (ev.apply L cache) := by
  rcases ev.apply_cases L cache with ⟨i, hrem, heq⟩ | ⟨hrem, heq | heq⟩
  · rw [hrem, heq]
    rw [hrem] at hroom
    exact h.remember hs hafter hroom
  · rw [hrem, heq]
    exact h
  · rw [hrem, heq]
    obtain ⟨t, ht, hb⟩ := h
    refine ⟨t, ht, ?_⟩
    rw [ReplayCache.entries_purge hs.consistent, hs.ttl_eq]
    apply hb.expire
    simp only [decide_eq_false_iff_not]
    omega

/-- A held job id stays held over every run inside the window. -/
theorem Holds.run {t₀ : Int} {since : List String} {j : String} {L : Libs}
    {events : List Event} (h : Holds t₀ since j cache) (hs : Sound capacity ttl cache)
    (hwindow : ∀ ev ∈ events, t₀ ≤ ev.last ∧ ev.last < t₀ + ttl)
    (hroom : (remembered L cache events ++ since).dedup.length < capacity) :
    Holds t₀ (remembered L cache events ++ since) j (run L cache events) := by
  induction events generalizing cache since with
  | nil => exact h
  | cons ev rest ih =>
      obtain ⟨hafter, hbefore⟩ := hwindow ev (by simp)
      have hroom' : (ev.remembers L cache ++ since).dedup.length < capacity := by
        refine lt_of_le_of_lt ?_ hroom
        apply (List.subperm_of_subset (List.nodup_dedup _) _).length_le
        intro i hi
        rw [List.mem_dedup] at hi ⊢
        simp only [remembered, List.append_assoc, List.mem_append] at hi ⊢
        exact Or.inr hi
      have hstep := h.apply hs hafter hbefore hroom'
      simp only [remembered, List.append_assoc] at hroom ⊢
      exact ih hstep (hs.apply L ev) (fun e he => hwindow e (by simp [he])) hroom

end Sound

/-- An accepted envelope is not accepted again, whatever is verified in between,
when its expiry, the tolerance and the time a later call takes up to its replay
check end within the time to live that starts with the first acceptance. -/
theorem not_accepted_again (L : Libs) (capacity : Nat) (ttl delay : Int)
    (before between : List Event) (c c' : Call) (clock clock' : Call.Clock)
    (henv : c'.env = c.env)
    (hordered : (before ++ Event.verify c clock :: (between ++ [Event.verify c' clock'])).Pairwise
      Event.Precedes)
    (haccepted : c.Accepted L clock (run L (.new capacity ttl) before))
    (hroom : (remembered L (run L (.new capacity ttl) (before ++ [.verify c clock]))
      between).dedup.length < capacity)
    (hdelay : clock'.seen - clock'.start ≤ delay)
    (hexpiry : c.env.expiresAt + ntpSkewTolerance + delay < clock.remember + ttl) :
    ¬ c'.Accepted L clock' (run L (.new capacity ttl) (before ++ .verify c clock :: between)) := by
  intro hagain
  obtain ⟨hcheck, hunseen⟩ := Call.accepted_iff.mp hagain
  have hstart := Call.start_le_of_check hcheck
  rw [henv] at hstart hunseen
  have hseen_le : clock'.start ≤ clock'.seen := clock'.start_le_seen
  have hsound := (sound_new capacity ttl).run L before
  have hsound₁ := hsound.apply L (.verify c clock)
  have hafter : run L (.new capacity ttl) (before ++ [.verify c clock]) =
      (Event.verify c clock).apply L (run L (.new capacity ttl) before) := by
    simp [run]
  have hholds : Holds clock.remember [] c.env.jobID
      ((Event.verify c clock).apply L (run L (.new capacity ttl) before)) := by
    rcases c.verify_cache L clock (run L (.new capacity ttl) before) with ⟨_, heq⟩ | ⟨hrej, _⟩
    · change Holds _ _ _ (c.verify L clock (run L (.new capacity ttl) before)).2
      rw [heq]
      exact Holds.of_remember hsound _ _ (le_refl _)
    · exact absurd haccepted hrej
  have hwindow : ∀ ev ∈ between,
      clock.remember ≤ ev.last ∧ ev.last < clock.remember + ttl := by
    intro ev hev
    rw [List.pairwise_append] at hordered
    obtain ⟨hfirst, hrest⟩ := List.pairwise_cons.mp hordered.2.1
    have h₁ : clock.remember ≤ ev.first := hfirst ev (by simp [hev])
    have hlast : ev.Precedes (.verify c' clock') :=
      (List.pairwise_append.mp hrest).2.2 ev hev _ (by simp)
    have h₂ : ev.last ≤ clock'.start := hlast
    have h₃ := ev.first_le_last
    omega
  rw [hafter] at hroom
  have hrun := hholds.run hsound₁ hwindow (by simpa using hroom)
  have hseen : (run L ((Event.verify c clock).apply L (run L (.new capacity ttl) before))
      between).seen c.env.jobID clock'.seen = true :=
    hrun.seen (hsound₁.run L between) (by omega)
  rw [run_append] at hunseen
  exact Bool.false_ne_true (hunseen.symm.trans hseen)

/-- A library whose signature check takes the public key itself as a signature. -/
def echoLibs : Libs where
  marshal := fun _ => .ok []
  ed25519Verify := fun pub _ signature => pub == signature

/-- A call that carries an envelope with the given timestamps. -/
def echoCall (jobID : String) (issuedAt expiresAt : Int) : Call where
  env :=
    { version := "pmx-agent-v1", jobID := jobID, issuedAt := issuedAt, expiresAt := expiresAt,
      issuer := "backend", audience := "pmx-core", host := "host", command := "vm.list",
      params := some [], signature := "2a" }
  keyset := [⟨[42], zeroTime⟩]
  agentClass := "pmx-core"
  hostFingerprint := "host"

theorem not_accepted_again_example :
    ¬ (echoCall "job" 0 hour).Accepted echoLibs (.at hour)
      (run echoLibs (.new 2 (24 * hour))
        ([] ++ .verify (echoCall "job" 0 hour) (.at 0) ::
          [.verify (echoCall "other" 0 hour) (.at second), .purge (2 * second)])) :=
  not_accepted_again echoLibs 2 (24 * hour) 0 []
    [.verify (echoCall "other" 0 hour) (.at second), .purge (2 * second)]
    (echoCall "job" 0 hour) (echoCall "job" 0 hour) (.at 0) (.at hour) rfl
    (by simp [Event.Precedes, Event.first, Event.last, Call.Clock.at, second, hour])
    rfl (by decide) (by decide) (by decide)

/-- An envelope issued in the future passes the lifetime cap and outlives the cache entry:
the cache of the core agent accepts it at once and again a day later. -/
theorem accepted_again_issuedAt_future :
    let c := echoCall "job" (25 * hour) (26 * hour)
    let fresh := ReplayCache.new 100000 (24 * hour)
    let first := Event.verify c (.at 0)
    maxLifetime + ntpSkewTolerance ≤ 24 * hour ∧
      first.Precedes (.verify c (.at (24 * hour))) ∧
      c.Accepted echoLibs (.at 0) fresh ∧
      (remembered echoLibs (run echoLibs fresh [first]) []).dedup.length < 100000 ∧
      c.Accepted echoLibs (.at (24 * hour)) (run echoLibs fresh [first]) := by
  refine ⟨by decide, ?_, rfl, by decide, rfl⟩
  change (0 : Int) ≤ 24 * hour
  decide

end PmxAgents.Shared

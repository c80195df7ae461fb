import Mathlib.Data.List.Induction
import PmxAgents.Telemetry.Thresholds

/-!
# Runs of the threshold engine

The engine is called with one batch after the other while its set of thresholds stays the
same. Every threshold then has a history of its own: neither the other thresholds nor the
channel have an influence on its state.

An alert is not to fire again until a minute after it was cleared. The engine measures the
minute from the time at which it fired. An alert that was held for long before it was
cleared may therefore fire again at once, unless its condition has to hold for a minute
first.
-/

namespace PmxAgents.Telemetry.Thresholds

open Lib Lib.Runs Lib.Binary64

variable {V : Type}

/-! ## Batches -/

/-- The metrics of a batch and the time at which it is evaluated. -/
structure Batch (V : Type) where
  metrics : List (Metric V)
  now : ℤ

section Engine
variable (F : Samples V)

/-- `Engine.Evaluate`: the new states, each with the alert that is emitted. -/
def evaluateBatch (states : List (ThresholdState V)) (b : Batch V) :
    List (ThresholdState V × Option (Alert V)) :=
  states.map fun t => t.visit F b.metrics b.now

/-- The states after some batches. -/
def afterBatches (states : List (ThresholdState V)) (batches : List (Batch V)) :
    List (ThresholdState V) :=
  batches.foldl (fun states b => (evaluateBatch F states b).map Prod.fst) states

/-- The alert that the threshold with number `k` emits for a batch, after others. -/
def emits (states : List (ThresholdState V)) (k : ℕ) (before : List (Batch V)) (b : Batch V) :
    Option (Alert V) :=
  (evaluateBatch F (afterBatches F states before) b)[k]?.bind Prod.snd

/-- The state of one threshold after some batches. -/
def ThresholdState.run (t : ThresholdState V) (batches : List (Batch V)) : ThresholdState V :=
  batches.foldl (fun t b => (t.visit F b.metrics b.now).1) t

/-- Wherever the batch has the metric, the condition holds. -/
def HoldsIn (rule : Threshold V) (b : Batch V) : Prop :=
  ∀ val, latest b.metrics rule.metric = some val → evaluate F rule.op val rule.value = true

/-- The times of the batches do not decrease. -/
def InTime (batches : List (Batch V)) : Prop := batches.Pairwise fun a b => a.now ≤ b.now

/-- Everything that one batch can do to a threshold. -/
inductive Visited (t : ThresholdState V) (b : Batch V) : ThresholdState V × Option (Alert V) → Prop
  | absent (hval : latest b.metrics t.rule.metric = none) : Visited t b (t, none)
  | fires {val : V} (hval : latest b.metrics t.rule.metric = some val)
      (hholds : evaluate F t.rule.op val t.rule.value = true)
      (hlong : F.duration t.rule.forSeconds ≤ b.now - t.since b.now) (hfire : t.shouldFire b.now) :
      Visited t b (⟨t.rule, some (t.since b.now), some b.now, false⟩,
        some (t.alert val false b.now))
  | holds {val : V} (hval : latest b.metrics t.rule.metric = some val)
      (hholds : evaluate F t.rule.op val t.rule.value = true) :
      Visited t b (⟨t.rule, some (t.since b.now), t.firedAt, t.cleared⟩, none)
  | clears {val : V} (hval : latest b.metrics t.rule.metric = some val)
      (hholds : evaluate F t.rule.op val t.rule.value = false)
      (hfired : t.firedAt.isSome ∧ t.cleared = false) :
      Visited t b (⟨t.rule, none, t.firedAt, true⟩, some (t.alert val true b.now))
  | fails {val : V} (hval : latest b.metrics t.rule.metric = some val)
      (hholds : evaluate F t.rule.op val t.rule.value = false)
      (hidle : t.firing = false) :
      Visited t b (⟨t.rule, none, t.firedAt, t.cleared⟩, none)

end Engine

section Visits
variable {F : Samples V}

theorem visited (t : ThresholdState V) (b : Batch V) :
    Visited F t b (t.visit F b.metrics b.now) := by
  rw [ThresholdState.visit]
  cases hval : latest b.metrics t.rule.metric with
  | none => exact .absent hval
  | some val =>
      show Visited F t b (t.advance F val b.now)
      rw [ThresholdState.advance]
      split_ifs with hholds hfire hfired
      · exact .fires hval hholds hfire.1 hfire.2
      · exact .holds hval hholds
      · exact .clears hval (Bool.eq_false_iff.mpr hholds) hfired
      · refine .fails hval (Bool.eq_false_iff.mpr hholds) ?_
        rw [ThresholdState.firing]
        cases hsome : t.firedAt.isSome <;> cases hcleared : t.cleared <;> simp_all

/-! ## One threshold among others -/

theorem run_concat (t : ThresholdState V) (batches : List (Batch V)) (b : Batch V) :
    t.run F (batches ++ [b]) = ((t.run F batches).visit F b.metrics b.now).1 := by
  rw [ThresholdState.run, List.foldl_append]
  rfl

theorem run_append (t : ThresholdState V) (batches others : List (Batch V)) :
    t.run F (batches ++ others) = (t.run F batches).run F others := by
  rw [ThresholdState.run, List.foldl_append]
  rfl

theorem run_cons (t : ThresholdState V) (b : Batch V) (batches : List (Batch V)) :
    t.run F (b :: batches) = (t.visit F b.metrics b.now).1.run F batches := rfl

theorem rule_visit (t : ThresholdState V) (metrics : List (Metric V)) (now : ℤ) :
    (t.visit F metrics now).1.rule = t.rule := (follows_visit t metrics now).1

theorem rule_run (t : ThresholdState V) (batches : List (Batch V)) :
    (t.run F batches).rule = t.rule := by
  induction batches using List.reverseRecOn with
  | nil => rfl
  | append_singleton batches b ih => rw [run_concat, rule_visit, ih]

theorem afterBatches_concat (states : List (ThresholdState V)) (batches : List (Batch V))
    (b : Batch V) : afterBatches F states (batches ++ [b]) =
      (evaluateBatch F (afterBatches F states batches) b).map Prod.fst := by
  rw [afterBatches, List.foldl_append]
  rfl

theorem afterBatches_eq (states : List (ThresholdState V)) (batches : List (Batch V)) :
    afterBatches F states batches = states.map fun t => t.run F batches := by
  induction batches using List.reverseRecOn with
  | nil => exact (List.map_id states).symm
  | append_singleton batches b ih =>
      rw [afterBatches_concat, ih, evaluateBatch, List.map_map, List.map_map]
      exact List.map_congr_left fun t _ => (run_concat t batches b).symm

/-- What a threshold emits is a matter of its own history. -/
theorem emits_eq {states : List (ThresholdState V)} {k : ℕ} {t : ThresholdState V}
    (hk : states[k]? = some t) (before : List (Batch V)) (b : Batch V) :
    emits F states k before b = ((t.run F before).visit F b.metrics b.now).2 := by
  rw [emits, afterBatches_eq, evaluateBatch, List.getElem?_map, List.getElem?_map, hk]
  rfl

/-- A fresh threshold of a set that was accepted. -/
theorem getElem?_set {thresholds : List (Threshold V)} {states : List (ThresholdState V)}
    (hset : set F thresholds = .ok states) {k : ℕ} {rule : Threshold V}
    (hk : thresholds[k]? = some rule) : states[k]? = some ⟨rule, none, none, false⟩ := by
  rw [set, Checks.bind_eq_ok] at hset
  obtain ⟨-, -, hset⟩ := hset
  obtain rfl := Except.ok.inj hset
  rw [List.getElem?_map, hk]
  rfl

/-! ## A minute of quiet -/

/-- An alert that fires finds its condition held for long enough. -/
theorem fires_of_visit {t : ThresholdState V} {b : Batch V} {a : Alert V}
    (h : (t.visit F b.metrics b.now).2 = some a) (hcleared : a.cleared = false) :
    (∃ val, latest b.metrics t.rule.metric = some val ∧
        evaluate F t.rule.op val t.rule.value = true) ∧
      F.duration t.rule.forSeconds ≤ b.now - t.since b.now ∧ t.shouldFire b.now ∧
      a.firedAt = b.now ∧ (t.visit F b.metrics b.now).1.firing = true := by
  have hvisited := visited (F := F) t b
  generalize t.visit F b.metrics b.now = next at h hvisited
  cases hvisited with
  | absent hval => cases h
  | @fires val hval hholds hlong hfire =>
      obtain rfl := Option.some.inj h
      exact ⟨⟨val, hval, hholds⟩, hlong, hfire, rfl, rfl⟩
  | holds hval hholds => cases h
  | clears hval hholds hfired =>
      obtain rfl := Option.some.inj h
      cases hcleared
  | fails hval hholds hidle => cases h

theorem clears_of_visit {t : ThresholdState V} {b : Batch V} {a : Alert V}
    (h : (t.visit F b.metrics b.now).2 = some a) (hcleared : a.cleared = true) :
    (∃ val, evaluate F t.rule.op val t.rule.value = false) ∧
      (t.visit F b.metrics b.now).1.holdingSince = none := by
  have hvisited := visited (F := F) t b
  generalize t.visit F b.metrics b.now = next at h hvisited
  cases hvisited with
  | absent hval => cases h
  | fires hval hholds hlong hfire =>
      obtain rfl := Option.some.inj h
      cases hcleared
  | holds hval hholds => cases h
  | @clears val hval hholds hfired => exact ⟨⟨val, hholds⟩, rfl⟩
  | fails hval hholds hidle => cases h

/-- What did not hold before a time has held from then on at the earliest. -/
theorem le_holdingSince_run {t : ThresholdState V} {c : ℤ} (hsince : ∀ h ∈ t.holdingSince, c ≤ h)
    {batches : List (Batch V)} (htimes : ∀ b ∈ batches, c ≤ b.now) :
    ∀ h ∈ (t.run F batches).holdingSince, c ≤ h := by
  induction batches using List.reverseRecOn with
  | nil => exact hsince
  | append_singleton batches b ih =>
      have ih := ih fun b' hb' => htimes b' (List.mem_append_left _ hb')
      have hnow : c ≤ b.now := htimes b (List.mem_append_right _ List.mem_cons_self)
      have hkept : c ≤ (t.run F batches).since b.now := by
        rw [ThresholdState.since]
        cases hs : (t.run F batches).holdingSince with
        | none => exact hnow
        | some h => exact ih h (Option.mem_def.mpr hs)
      rw [run_concat]
      have hvisited := visited (F := F) (t.run F batches) b
      generalize (t.run F batches).visit F b.metrics b.now = next at hvisited
      cases hvisited with
      | absent hval => exact ih
      | fires hval hholds hlong hfire => exact fun h hh => Option.some.inj hh ▸ hkept
      | holds hval hholds => exact fun h hh => Option.some.inj hh ▸ hkept
      | clears hval hholds hfired => exact fun h hh => absurd hh (Option.not_mem_none h)
      | fails hval hholds hidle => exact fun h hh => absurd hh (Option.not_mem_none h)

theorem le_since_run {t : ThresholdState V} {c : ℤ} (hsince : t.holdingSince = none)
    {batches : List (Batch V)} (htimes : ∀ b ∈ batches, c ≤ b.now) {now : ℤ} (hnow : c ≤ now) :
    c ≤ (t.run F batches).since now := by
  have hnone : ∀ h ∈ t.holdingSince, c ≤ h := by
    rw [hsince]
    exact fun h hh => absurd hh (Option.not_mem_none h)
  have hkept := le_holdingSince_run (F := F) hnone htimes
  rw [ThresholdState.since]
  cases hs : (t.run F batches).holdingSince with
  | none => exact hnow
  | some h => exact hkept h (Option.mem_def.mpr hs)

end Visits

section Quiet
variable (F : Samples V)

/-- After an alert was cleared, none fires for the same threshold within a minute. -/
def QuietAfterClear (states : List (ThresholdState V)) (k : ℕ) : Prop :=
  ∀ (before : List (Batch V)) (b : Batch V) (between : List (Batch V)) (b' : Batch V)
    (a a' : Alert V), InTime (before ++ b :: (between ++ [b'])) →
    emits F states k before b = some a → a.cleared = true →
    emits F states k (before ++ b :: between) b' = some a' → a'.cleared = false →
    b.now + debounce ≤ b'.now

/-- There are samples for which the condition holds and others for which it does not. -/
def Crossable (rule : Threshold V) : Prop :=
  (∃ val, evaluate F rule.op val rule.value = true) ∧
    ∃ val, evaluate F rule.op val rule.value = false

variable {F}

theorem quiet_of_clear {t : ThresholdState V} {before between : List (Batch V)} {b b' : Batch V}
    {a a' : Alert V} (htimes : InTime (before ++ b :: (between ++ [b'])))
    (hclear : ((t.run F before).visit F b.metrics b.now).2 = some a) (hcleared : a.cleared = true)
    (hfire : ((t.run F (before ++ b :: between)).visit F b'.metrics b'.now).2 = some a')
    (hfires : a'.cleared = false) :
    Crossable F t.rule ∧ b.now + F.duration t.rule.forSeconds ≤ b'.now := by
  obtain ⟨hfalse, hnone⟩ := clears_of_visit hclear hcleared
  obtain ⟨⟨val, -, htrue⟩, hlong, -, -, -⟩ := fires_of_visit hfire hfires
  rw [rule_run] at hfalse htrue hlong
  obtain ⟨-, hafter, -⟩ := List.pairwise_append.mp htimes
  obtain ⟨hlater, -⟩ := List.pairwise_cons.mp hafter
  have hbetween : ∀ x ∈ between, b.now ≤ x.now := fun x hx => hlater x (List.mem_append_left _ hx)
  have hlast : b.now ≤ b'.now := hlater b' (List.mem_append_right _ List.mem_cons_self)
  have hsince := le_since_run (F := F) hnone hbetween hlast
  rw [run_append, run_cons] at hlong
  exact ⟨⟨⟨val, htrue⟩, hfalse⟩, by omega⟩

/-! ## A run that breaks it -/

/-- A batch with one sample for a threshold. -/
def sampleAt (rule : Threshold V) (val : V) (now : ℤ) : Batch V := ⟨[⟨rule.metric, val⟩], now⟩

theorem latest_sampleAt (rule : Threshold V) (val : V) (now : ℤ) :
    latest (sampleAt rule val now).metrics rule.metric = some val := by
  simp [latest, sampleAt]

variable {rule : Threshold V} {high low : V} {firedAt : Option ℤ} {cleared : Bool} {start : ℤ}

theorem visit_sampleAt (t : ThresholdState V) (val : V) (now : ℤ) :
    t.visit F (sampleAt t.rule val now).metrics now = t.advance F val now := by
  rw [ThresholdState.visit, latest_sampleAt]

theorem advance_fires {t : ThresholdState V} {val : V} {now : ℤ}
    (hholds : evaluate F t.rule.op val t.rule.value = true)
    (hlong : F.duration t.rule.forSeconds ≤ now - t.since now) (hfire : t.shouldFire now) :
    t.advance F val now =
      (⟨t.rule, some (t.since now), some now, false⟩, some (t.alert val false now)) := by
  rw [ThresholdState.advance, if_pos hholds, if_pos ⟨hlong, hfire⟩]

theorem advance_waits {t : ThresholdState V} {val : V} {now : ℤ}
    (hholds : evaluate F t.rule.op val t.rule.value = true)
    (hwaits : F.duration t.rule.forSeconds ≤ now - t.since now → t.shouldFire now = false) :
    t.advance F val now = (⟨t.rule, some (t.since now), t.firedAt, t.cleared⟩, none) := by
  rw [ThresholdState.advance, if_pos hholds,
    if_neg fun hboth => Bool.false_ne_true ((hwaits hboth.1).symm.trans hboth.2)]

theorem advance_clears {t : ThresholdState V} {val : V} {now : ℤ}
    (hholds : evaluate F t.rule.op val t.rule.value = false)
    (hfired : t.firedAt.isSome ∧ t.cleared = false) :
    t.advance F val now = (⟨t.rule, none, t.firedAt, true⟩, some (t.alert val true now)) := by
  rw [ThresholdState.advance, if_neg (Bool.eq_false_iff.mp hholds), if_pos hfired]

/-- How long a condition has to hold, at least no time. -/
def wait (F : Samples V) (rule : Threshold V) : ℤ := (F.duration rule.forSeconds).toNat

/-- A condition that begins to hold and still does after the wait: the alert fires at one of the two
samples. -/
theorem fires_of_two_samples (hhigh : evaluate F rule.op high rule.value = true)
    (hfire : ∀ now, start ≤ now →
      (⟨rule, none, firedAt, cleared⟩ : ThresholdState V).shouldFire now) :
    (⟨rule, none, firedAt, cleared⟩ : ThresholdState V).run F
        [sampleAt rule high start, sampleAt rule high (start + wait F rule)] =
      ⟨rule, some start, some (start + wait F rule), false⟩ ∧
    ∃ before now a, (before = [] ∧ now = start ∨
        before = [sampleAt rule high start] ∧ now = start + wait F rule) ∧
      (((⟨rule, none, firedAt, cleared⟩ : ThresholdState V).run F before).visit F
        (sampleAt rule high now).metrics now).2 = some a ∧ a.cleared = false := by
  have hfirst := visit_sampleAt (F := F) ⟨rule, none, firedAt, cleared⟩ high start
  have hrun : (⟨rule, none, firedAt, cleared⟩ : ThresholdState V).run F
      [sampleAt rule high start, sampleAt rule high (start + wait F rule)] =
      ((((⟨rule, none, firedAt, cleared⟩ : ThresholdState V).visit F
        (sampleAt rule high start).metrics start).1).visit F
          (sampleAt rule high (start + wait F rule)).metrics (start + wait F rule)).1 := rfl
  have hnone : (⟨rule, none, firedAt, cleared⟩ : ThresholdState V).since start = start := rfl
  by_cases hd : F.duration rule.forSeconds ≤ 0
  · -- The alert has fired at the first sample, and the second is at the same time.
    have hzero : start + wait F rule = start := by
      rw [wait]
      omega
    have hlong : F.duration rule.forSeconds ≤
        start - (⟨rule, none, firedAt, cleared⟩ : ThresholdState V).since start := by
      rw [hnone]
      omega
    rw [advance_fires hhigh hlong (hfire start (Int.le_refl start))] at hfirst
    have hsecond := visit_sampleAt (F := F) ⟨rule, some start, some start, false⟩ high start
    rw [advance_waits hhigh fun _ => rfl] at hsecond
    refine ⟨?_, [], start, _, Or.inl ⟨rfl, rfl⟩, congrArg Prod.snd hfirst, rfl⟩
    rw [hrun, hzero, hfirst, hnone]
    exact congrArg Prod.fst hsecond
  · have hshort : F.duration rule.forSeconds ≤
        start - (⟨rule, none, firedAt, cleared⟩ : ThresholdState V).since start →
          (⟨rule, none, firedAt, cleared⟩ : ThresholdState V).shouldFire start = false := by
      rw [hnone]
      omega
    rw [advance_waits hhigh hshort] at hfirst
    have hlong : F.duration rule.forSeconds ≤ (start + wait F rule) -
        (⟨rule, some start, firedAt, cleared⟩ : ThresholdState V).since (start + wait F rule) := by
      show _ ≤ start + wait F rule - start
      rw [wait]
      omega
    have hlater : start ≤ start + wait F rule := by
      rw [wait]
      omega
    have hsecond := visit_sampleAt (F := F) ⟨rule, some start, firedAt, cleared⟩ high
      (start + wait F rule)
    rw [advance_fires hhigh hlong (hfire _ hlater)] at hsecond
    have hstate : (⟨rule, none, firedAt, cleared⟩ : ThresholdState V).run F
        [sampleAt rule high start] = ⟨rule, some start, firedAt, cleared⟩ :=
          congrArg Prod.fst hfirst
    refine ⟨?_, [sampleAt rule high start], start + wait F rule,
      ⟨rule.id, rule.metric, high, rule.severity, false, start + wait F rule⟩,
      Or.inr ⟨rfl, rfl⟩, ?_, rfl⟩
    · rw [hrun, hfirst]
      exact congrArg Prod.fst hsecond
    · rw [hstate]
      exact congrArg Prod.snd hsecond

/-- The threshold fires, is cleared a minute later, and fires again after the wait. -/
theorem exists_early_alert (hhigh : evaluate F rule.op high rule.value = true)
    (hlow : evaluate F rule.op low rule.value = false) :
    ∃ before b between b' a a', InTime (before ++ b :: (between ++ [b'])) ∧
      (((⟨rule, none, none, false⟩ : ThresholdState V).run F before).visit F b.metrics b.now).2 =
        some a ∧ a.cleared = true ∧
      (((⟨rule, none, none, false⟩ : ThresholdState V).run F (before ++ b :: between)).visit F
        b'.metrics b'.now).2 = some a' ∧ a'.cleared = false ∧ b'.now ≤ b.now + wait F rule := by
  have hwait : 0 ≤ wait F rule := Int.natCast_nonneg _
  have hminute : 0 ≤ debounce := by decide
  have hfired : (⟨rule, none, none, false⟩ : ThresholdState V).run F
      [sampleAt rule high 0, sampleAt rule high (0 + wait F rule)] =
        ⟨rule, some 0, some (0 + wait F rule), false⟩ :=
          (fires_of_two_samples hhigh fun _ _ => rfl).1
  let clear := 0 + wait F rule + debounce
  have hclear := visit_sampleAt (F := F) ⟨rule, some 0, some (0 + wait F rule), false⟩ low clear
  rw [advance_clears hlow ⟨rfl, rfl⟩] at hclear
  -- From the time of the clear on the minute since the alert is over.
  have hagain : ∀ now, clear ≤ now →
      (⟨rule, none, some (0 + wait F rule), true⟩ : ThresholdState V).shouldFire now := by
    intro now hnow
    have hlong : debounce ≤ now - (0 + wait F rule) := by omega
    exact decide_eq_true hlong
  obtain ⟨-, between, now, a, hcases, hfire, hcleared⟩ := fires_of_two_samples hhigh hagain
  refine ⟨[sampleAt rule high 0, sampleAt rule high (0 + wait F rule)], sampleAt rule low clear,
    between, sampleAt rule high now, ⟨rule.id, rule.metric, low, rule.severity, true, clear⟩, a,
    ?_, ?_, rfl, ?_, hcleared, ?_⟩
  · rcases hcases with ⟨rfl, rfl⟩ | ⟨rfl, rfl⟩
    · simp [InTime, sampleAt]
      omega
    · simp [InTime, sampleAt]
      omega
  · rw [hfired]
    exact congrArg Prod.snd hclear
  · rw [run_append, hfired, run_cons]
    show ((((ThresholdState.visit F _ (sampleAt rule low clear).metrics clear).1).run F
      between).visit F _ now).2 = _
    rw [hclear]
    exact hfire
  · rcases hcases with ⟨-, rfl⟩ | ⟨-, rfl⟩
    · show clear ≤ clear + wait F rule
      omega
    · exact Int.le_refl _

/-- For every accepted set, a threshold keeps quiet for a minute after it was cleared if its
condition has to hold for a minute, or never changes. -/
theorem quietAfterClear_iff {thresholds : List (Threshold V)} {states : List (ThresholdState V)}
    (hset : set F thresholds = .ok states) {k : ℕ} (hk : thresholds[k]? = some rule) :
    QuietAfterClear F states k ↔
      debounce ≤ F.duration rule.forSeconds ∨ ¬ Crossable F rule := by
  have hstate := getElem?_set hset hk
  constructor
  · intro hquiet
    by_contra hshort
    obtain ⟨hshort, hcross⟩ := not_or.mp hshort
    obtain ⟨⟨high, hhigh⟩, low, hlow⟩ := not_not.mp hcross
    obtain ⟨before, b, between, b', a, a', htimes, hclear, hcleared, hfire, hfires, hsoon⟩ :=
      exists_early_alert (F := F) hhigh hlow
    have hlate := hquiet before b between b' a a' htimes ((emits_eq hstate before b).trans hclear)
      hcleared ((emits_eq hstate _ b').trans hfire) hfires
    rw [debounce] at hshort hlate
    rw [wait] at hsoon
    omega
  · intro hslow before b between b' a a' htimes hclear hcleared hfire hfires
    rw [emits_eq hstate] at hclear hfire
    obtain ⟨hcross, hlong⟩ := quiet_of_clear htimes hclear hcleared hfire hfires
    rcases hslow with hslow | hnever
    · exact Int.le_trans (Int.add_le_add_left hslow b.now) hlong
    · exact absurd hcross hnever

end Quiet

theorem ninety_lt : 90 < 2 ^ 53 := by decide

/-- Ninety seconds. -/
def ninety : Finite := .ofNat 90 ninety_lt

/-- A condition that has to hold for a minute and a half. -/
def patient : Threshold Number := { load with forSeconds := .finite ninety }

theorem quietAfterClear_iff_patient :
    set (goSamples fun _ => 0) [patient] = .ok [⟨patient, none, none, false⟩] ∧
      (QuietAfterClear (goSamples fun _ => 0) [⟨patient, none, none, false⟩] 0 ↔
        debounce ≤ (goSamples fun _ => 0).duration patient.forSeconds ∨
          ¬ Crossable (goSamples fun _ => 0) patient) ∧
      debounce ≤ (goSamples fun _ => 0).duration patient.forSeconds := by
  have hset : set (goSamples fun _ => 0) [patient] = .ok [⟨patient, none, none, false⟩] := by
    decide +kernel
  exact ⟨hset, quietAfterClear_iff hset rfl, by decide +kernel⟩

/-- The condition holds, fails a minute later, and holds again at once. -/
theorem fires_right_after_clear :
    set (goSamples fun _ => 0) [load] = .ok [⟨load, none, none, false⟩] ∧
      ¬ QuietAfterClear (goSamples fun _ => 0) [⟨load, none, none, false⟩] 0 := by
  refine ⟨by decide +kernel, fun hquiet => ?_⟩
  have hlate := hquiet [sampleAt load high 0] (sampleAt load low debounce) []
    (sampleAt load high debounce) ⟨"load", "cpu.load", low, .warn, true, debounce⟩
    ⟨"load", "cpu.load", high, .warn, false, debounce⟩ (by simp [InTime, sampleAt, debounce])
    (by decide +kernel) rfl (by decide +kernel) rfl
  exact absurd hlate (by decide)

end PmxAgents.Telemetry.Thresholds

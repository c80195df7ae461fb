import PmxAgents.Telemetry.ThresholdRuns

/-!
# How long a condition has held

An alert fires when its condition has held for some seconds, without a batch in between
for which it fails, and it fires once for such a stretch.

The seconds are a floating-point number. Their product with the nanoseconds of a second
is rounded to such a number again and then down to an integer. Below 2^53 nanoseconds
this is never less than the exact product rounded down. Above it may be, by at most 512
nanoseconds.
-/

namespace PmxAgents.Telemetry.Thresholds

open Lib Lib.Binary64

variable {V : Type}

/-! ## Stretches -/

section Stretches
variable {F : Samples V}

/-- The last batches, from one with the time on, are such that the condition holds in them. -/
def HeldSince (F : Samples V) (rule : Threshold V) (batches : List (Batch V)) (h : ℤ) : Prop :=
  ∃ earlier first held, batches = earlier ++ first :: held ∧ first.now = h ∧
    ∀ x ∈ first :: held, HoldsIn F rule x

theorem HeldSince.concat {rule : Threshold V} {batches : List (Batch V)} {h : ℤ}
    (hheld : HeldSince F rule batches h) {b : Batch V} (hb : HoldsIn F rule b) :
    HeldSince F rule (batches ++ [b]) h := by
  obtain ⟨earlier, first, held, rfl, hfirst, hall⟩ := hheld
  refine ⟨earlier, first, held ++ [b], by simp, hfirst, fun x hx => ?_⟩
  rw [← List.cons_append, List.mem_append, List.mem_singleton] at hx
  rcases hx with hx | rfl
  · exact hall x hx
  · exact hb

theorem heldSince_concat {rule : Threshold V} (batches : List (Batch V)) {b : Batch V}
    (hb : HoldsIn F rule b) : HeldSince F rule (batches ++ [b]) b.now :=
  ⟨batches, b, [], rfl, rfl, List.forall_mem_singleton.mpr hb⟩

theorem holdsIn_of_latest {rule : Threshold V} {b : Batch V} {val : V}
    (hval : latest b.metrics rule.metric = some val)
    (hholds : evaluate F rule.op val rule.value = true) : HoldsIn F rule b := by
  intro v hv
  obtain rfl := Option.some.inj (hval.symm.trans hv)
  exact hholds

/-- The condition has held since the time that the state has stored. -/
theorem heldSince_run {t : ThresholdState V} (hfresh : t.holdingSince = none)
    (batches : List (Batch V)) :
    ∀ h ∈ (t.run F batches).holdingSince, HeldSince F t.rule batches h := by
  induction batches using List.reverseRecOn with
  | nil =>
      intro h hh
      replace hh : h ∈ t.holdingSince := hh
      rw [hfresh] at hh
      exact absurd hh (Option.not_mem_none h)
  | append_singleton batches b ih =>
      have hsince : HoldsIn F t.rule b →
          ∀ h ∈ some ((t.run F batches).since b.now), HeldSince F t.rule (batches ++ [b]) h := by
        intro hb h hh
        obtain rfl := Option.some.inj hh
        rw [ThresholdState.since]
        cases hs : (t.run F batches).holdingSince with
        | none => exact heldSince_concat batches hb
        | some h => exact (ih h hs).concat hb
      have hvisited := visited (F := F) (t.run F batches) b
      rw [run_concat]
      generalize (t.run F batches).visit F b.metrics b.now = next at hvisited
      cases hvisited with
      | absent hval =>
          rw [rule_run] at hval
          have hb : HoldsIn F t.rule b := fun v hv => absurd (hval.symm.trans hv) (by simp)
          exact fun h hh => (ih h hh).concat hb
      | fires hval hholds hlong hfire =>
          rw [rule_run] at hval hholds
          exact hsince (holdsIn_of_latest hval hholds)
      | holds hval hholds =>
          rw [rule_run] at hval hholds
          exact hsince (holdsIn_of_latest hval hholds)
      | clears hval hholds hfired => exact fun h hh => absurd hh (Option.not_mem_none h)
      | fails hval hholds hidle => exact fun h hh => absurd hh (Option.not_mem_none h)

/-- An alert fires for a condition that has held for its duration. -/
theorem heldSince_of_fires {t : ThresholdState V} (hfresh : t.holdingSince = none)
    {before : List (Batch V)} {b : Batch V} {a : Alert V}
    (hfire : ((t.run F before).visit F b.metrics b.now).2 = some a) (hfires : a.cleared = false) :
    ∃ h, F.duration t.rule.forSeconds ≤ b.now - h ∧ HeldSince F t.rule (before ++ [b]) h := by
  obtain ⟨⟨val, hval, hholds⟩, hlong, -, -, -⟩ := fires_of_visit hfire hfires
  rw [rule_run] at hval hholds hlong
  have hb := holdsIn_of_latest hval hholds
  refine ⟨(t.run F before).since b.now, hlong, ?_⟩
  rw [ThresholdState.since]
  cases hs : (t.run F before).holdingSince with
  | none => exact heldSince_concat before hb
  | some h => exact (heldSince_run hfresh before h hs).concat hb

/-! ## One alert for a stretch -/

/-- The alerts that fire for some batches, after others. -/
def firedIn (F : Samples V) (states : List (ThresholdState V)) (k : ℕ) (before : List (Batch V)) :
    List (Batch V) → List (Alert V)
  | [] => []
  | b :: rest => ((emits F states k before b).filter fun a => !a.cleared).toList ++
      firedIn F states k (before ++ [b]) rest

/-- As long as the condition holds, an alert that has fired stays as it is. -/
theorem visit_of_firing {t : ThresholdState V} (hfiring : t.firing = true) {b : Batch V}
    (hb : HoldsIn F t.rule b) :
    (t.visit F b.metrics b.now).2 = none ∧ (t.visit F b.metrics b.now).1.firing = true := by
  have hvisited := visited (F := F) t b
  generalize t.visit F b.metrics b.now = next at hvisited
  cases hvisited with
  | absent hval => exact ⟨rfl, hfiring⟩
  | fires hval hholds hlong hfire =>
      rw [firing_of_shouldFire hfire] at hfiring
      cases hfiring
  | holds hval hholds => exact ⟨rfl, hfiring⟩
  | clears hval hholds hfired =>
      rw [hb _ hval] at hholds
      cases hholds
  | fails hval hholds hidle =>
      rw [hb _ hval] at hholds
      cases hholds

section Stretch
variable {states : List (ThresholdState V)} {k : ℕ} {t : ThresholdState V}

theorem firedIn_of_firing (hk : states[k]? = some t) {before stretch : List (Batch V)}
    (hfiring : (t.run F before).firing = true) (hholds : ∀ x ∈ stretch, HoldsIn F t.rule x) :
    firedIn F states k before stretch = [] := by
  induction stretch generalizing before with
  | nil => rfl
  | cons b rest ih =>
      obtain ⟨hb, hrest⟩ := List.forall_mem_cons.mp hholds
      rw [← rule_run (F := F) t before] at hb
      obtain ⟨hnone, hstill⟩ := visit_of_firing hfiring hb
      rw [firedIn, emits_eq hk, hnone, ih (by rw [run_concat]; exact hstill) hrest]
      rfl

theorem length_firedIn_le (hk : states[k]? = some t) {before stretch : List (Batch V)}
    (hholds : ∀ x ∈ stretch, HoldsIn F t.rule x) :
    (firedIn F states k before stretch).length ≤ 1 := by
  induction stretch generalizing before with
  | nil => exact Nat.zero_le 1
  | cons b rest ih =>
      obtain ⟨-, hrest⟩ := List.forall_mem_cons.mp hholds
      rw [firedIn, emits_eq hk]
      cases hfire : ((t.run F before).visit F b.metrics b.now).2.filter fun a => !a.cleared with
      | none => exact ih hrest
      | some a =>
          obtain ⟨hemits, hcleared⟩ := Option.filter_eq_some_iff.mp hfire
          obtain ⟨-, -, -, -, hfiring⟩ := fires_of_visit hemits (by simpa using hcleared)
          rw [← run_concat] at hfiring
          rw [firedIn_of_firing hk hfiring hrest]
          exact Nat.le_refl 1

end Stretch

end Stretches

/-! ## Seconds as a duration -/

/-- The seconds in nanoseconds, rounded down. -/
def exactNanos (seconds : Finite) : ℕ := seconds.units * 10 ^ 9 / one

section Rounding
variable {x : Finite}

theorem exactNanos_le_nanos (h : x.units * 10 ^ 9 < 2 ^ 53 * one) : exactNanos x ≤ nanos x := by
  rw [one, ← Nat.pow_add] at h
  rw [nanos, Nat.le_div_iff_mul_le Binary64.one_pos]
  exact mul_le_roundUnits h (Nat.div_mul_le_self _ _)

theorem rounded_bounds (h : x.units * 10 ^ 9 < 2 ^ 63 * one) :
    x.units * 10 ^ 9 ≤ roundUnits (x.units * 10 ^ 9) 1 + 512 * one ∧
      roundUnits (x.units * 10 ^ 9) 1 ≤ x.units * 10 ^ 9 + 512 * one := by
  have hplaces : 2 ^ (10 + unitPlaces) = 1024 * one := Nat.pow_add 2 10 unitPlaces
  rw [one, ← Nat.pow_add, show 63 + unitPlaces = 53 + (10 + unitPlaces) by omega] at h
  obtain ⟨hle, hge⟩ := roundUnits_bounds h
  rw [hplaces] at hle hge
  omega

theorem exactNanos_le_add (h : x.units * 10 ^ 9 < 2 ^ 63 * one) : exactNanos x ≤ nanos x + 512 := by
  rw [exactNanos, nanos, ← Nat.add_mul_div_right _ _ Binary64.one_pos]
  exact Nat.div_le_div_right (rounded_bounds h).1

/-- The greatest seconds below the limit are far enough from it. -/
theorem nanos_lt (h : x.units * 10 ^ 9 < 2 ^ 63 * one) : nanos x < 2 ^ 63 := by
  rw [nanos, Nat.div_lt_iff_lt_mul Binary64.one_pos]
  by_cases hfar : x.units * 10 ^ 9 + 512 * one < 2 ^ 63 * one
  · exact (rounded_bounds h).2.trans_lt hfar
  · -- The last place of so many seconds is 2^-19 seconds.
    have hplaces : unitPlaces = 19 + (unitPlaces - 19) := by
      unfold unitPlaces
      rfl
    have hone : one = 2 ^ 19 * 2 ^ (unitPlaces - 19) := by
      rw [one, ← Nat.pow_add, ← hplaces]
    have hlarge : 2 ^ (52 + (unitPlaces - 19)) ≤ x.units := by
      rw [Nat.pow_add]
      omega
    obtain ⟨m, hm⟩ := dvd_of_roundUnits x.exact hlarge
    have hplace := Nat.two_pow_pos (unitPlaces - 19)
    rw [hone, hm] at h hfar
    have hlt : m * 10 ^ 9 < 2 ^ 82 := by
      refine Nat.lt_of_mul_lt_mul_left (a := 2 ^ (unitPlaces - 19)) ?_
      linarith
    have hge : 2 ^ 82 ≤ m * 10 ^ 9 + 2 ^ 28 := by
      refine Nat.le_of_mul_le_mul_left (c := 2 ^ (unitPlaces - 19)) ?_ hplace
      linarith
    omega

theorem goDuration_eq (overflow : Number → ℤ) (hnonneg : ¬ x.signed < 0)
    (h : x.units * 10 ^ 9 < 2 ^ 63 * one) : goDuration overflow (.finite x) = nanos x := by
  have hlt := nanos_lt h
  have hsign : (if x.negative then -(nanos x : ℤ) else nanos x) = nanos x := by
    split_ifs with hneg
    · rw [Finite.signed, if_pos hneg] at hnonneg
      have hzero : x.units = 0 := by omega
      have hnone : nanos x = 0 := by
        rw [nanos, hzero, Nat.zero_mul, ← Nat.zero_mul (2 ^ 0),
          roundUnits_of_lt (Nat.two_pow_pos 53)]
        exact Nat.div_eq_of_lt (by rw [Nat.zero_mul]; exact Binary64.one_pos)
      rw [hnone]
      rfl
    · rfl
  simp only [goDuration, hsign]
  exact if_pos (by omega)

end Rounding

/-- The seconds of an accepted threshold are not below zero. -/
theorem lt_zero_of_set {F : Samples V} {thresholds : List (Threshold V)}
    {states : List (ThresholdState V)} (hset : set F thresholds = .ok states) {rule : Threshold V}
    (hmem : rule ∈ thresholds) : F.lt rule.forSeconds F.zero = false := by
  rw [set, Checks.bind_eq_ok] at hset
  obtain ⟨_, hvalid, -⟩ := hset
  have hrule := Checks.forM_eq_ok.mp hvalid rule hmem
  by_contra hlt
  rw [Bool.not_eq_false] at hlt
  rw [validateThreshold] at hrule
  simp only [hlt, if_true] at hrule
  by_cases hid : rule.id = ""
  · rw [if_pos hid] at hrule
    cases hrule
  · by_cases hmetric : rule.metric = ""
    · rw [if_neg hid, if_pos hmetric] at hrule
      cases hrule
    · rw [if_neg hid, if_neg hmetric] at hrule
      cases hop : rule.op <;> rw [hop] at hrule <;> cases hrule

/-- For every accepted threshold with seconds below the limit of a duration: an alert fires for a
condition that has held for the seconds, as they are rounded, and once for each stretch in which it
holds. -/
theorem fires_once_when_held (overflow : Number → ℤ) {thresholds : List (Threshold Number)}
    {states : List (ThresholdState Number)}
    (hset : set (goSamples overflow) thresholds = .ok states)
    {k : ℕ} {rule : Threshold Number} (hk : thresholds[k]? = some rule) {x : Finite}
    (hx : rule.forSeconds = .finite x) (hbelow : x.units * 10 ^ 9 < 2 ^ 63 * one) :
    (∀ before b a, emits (goSamples overflow) states k before b = some a → a.cleared = false →
      ∃ t₀ : ℤ, nanos x ≤ b.now - t₀ ∧ HeldSince (goSamples overflow) rule (before ++ [b]) t₀) ∧
    (x.units * 10 ^ 9 < 2 ^ 53 * one → exactNanos x ≤ nanos x) ∧
    exactNanos x ≤ nanos x + 512 ∧
    ∀ before stretch, (∀ b ∈ stretch, HoldsIn (goSamples overflow) rule b) →
      (firedIn (goSamples overflow) states k before stretch).length ≤ 1 := by
  have hstate := getElem?_set hset hk
  have hpositive : (goSamples overflow).lt rule.forSeconds (goSamples overflow).zero = false :=
    lt_zero_of_set hset (List.mem_of_getElem? hk)
  have hnonneg : ¬ x.signed < 0 := by
    rw [hx] at hpositive
    have hzero : (Finite.ofNat 0 (Nat.two_pow_pos 53)).signed = 0 := by
      rw [Finite.signed_ofNat, Nat.zero_mul]
      rfl
    rw [← hzero]
    exact of_decide_eq_false hpositive
  have hduration : (goSamples overflow).duration rule.forSeconds = nanos x := by
    rw [hx]
    exact goDuration_eq overflow hnonneg hbelow
  refine ⟨fun before b a hemits hfires => ?_, exactNanos_le_nanos, exactNanos_le_add hbelow,
    fun before stretch hholds => length_firedIn_le hstate hholds⟩
  rw [emits_eq hstate] at hemits
  obtain ⟨h, hlong, hheld⟩ := heldSince_of_fires rfl hemits hfires
  rw [hduration] at hlong
  exact ⟨h, hlong, hheld⟩

theorem fires_once_when_held_ninety :
    (∀ before b a, emits (goSamples fun _ => 0) [⟨patient, none, none, false⟩] 0 before b = some a →
        a.cleared = false → ∃ t₀ : ℤ, nanos ninety ≤ b.now - t₀ ∧
          HeldSince (goSamples fun _ => 0) patient (before ++ [b]) t₀) ∧
      exactNanos ninety ≤ nanos ninety := by
  have hset : set (goSamples fun _ => 0) [patient] = .ok [⟨patient, none, none, false⟩] := by
    decide +kernel
  obtain ⟨hheld, hle, -, -⟩ := fires_once_when_held (fun _ => 0) hset (k := 0) rfl (x := ninety) rfl
    (by decide +kernel)
  exact ⟨hheld, hle (by decide +kernel)⟩

/-! ## A nanosecond too early -/

theorem early_lt : 4611686021 < 2 ^ 53 := by decide

/-- The seconds 9007199.259765625, some 104 days. -/
def early : Finite := ⟨false, 4611686021 * 2 ^ (unitPlaces - 9), roundUnits_of_lt early_lt _⟩

def hasty : Threshold Number := { load with forSeconds := .finite early }

theorem now_nonneg_of_heldSince {F : Samples V} {rule : Threshold V} {batches : List (Batch V)}
    {t₀ : ℤ} (hheld : HeldSince F rule batches t₀) (hnow : ∀ b ∈ batches, 0 ≤ b.now) : 0 ≤ t₀ := by
  obtain ⟨earlier, first, held, rfl, rfl, -⟩ := hheld
  exact hnow first (by simp)

/-- The alert fires although its condition has not held for the seconds in whole nanoseconds. -/
theorem fires_a_nanosecond_early :
    Decimal.parse ⟨9007199259765625, -9⟩ = ⟨false, early.units⟩ ∧
      early.units * 10 ^ 9 < 2 ^ 63 * one ∧
      set (goSamples fun _ => 0) [hasty] = .ok [⟨hasty, none, none, false⟩] ∧
      ∃ before b a, InTime (before ++ [b]) ∧
        emits (goSamples fun _ => 0) [⟨hasty, none, none, false⟩] 0 before b = some a ∧
        a.cleared = false ∧ ¬ ∃ t₀ : ℤ, exactNanos early ≤ b.now - t₀ ∧
          HeldSince (goSamples fun _ => 0) hasty (before ++ [b]) t₀ := by
  refine ⟨by decide +kernel, by decide +kernel, by decide +kernel, [sampleAt hasty high 0],
    sampleAt hasty high 9007199259765624,
    ⟨"load", "cpu.load", high, .warn, false, 9007199259765624⟩, ?_, ?_, rfl, ?_⟩
  · simp [InTime, sampleAt]
  · decide +kernel
  · rintro ⟨t₀, hlate, hheld⟩
    have hnonneg : 0 ≤ t₀ := now_nonneg_of_heldSince hheld (by simp [sampleAt])
    have hexact : exactNanos early = 9007199259765625 := by decide +kernel
    rw [hexact] at hlate
    replace hlate : 9007199259765625 ≤ 9007199259765624 - t₀ := hlate
    omega

end PmxAgents.Telemetry.Thresholds

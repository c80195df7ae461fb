import Mathlib.Data.Int.Notation
import Mathlib.Data.List.Nodup
import PmxAgents.Lib.Binary64
import PmxAgents.Lib.Checks
import PmxAgents.Lib.Runs

/-!
# Thresholds

The backend sends a set of thresholds. On every batch of samples each of them is evaluated: an
alert fires when the condition has held for long enough, and one that clears it follows when
the condition holds no more. The alerts go into a channel with 256 places, from which they are
sent to the backend.

The state of a threshold changes with the alert, and not with its place in the channel: an alert
for which there is no place is gone. As long as there is one for every alert, what comes out of
the channel alternates for each threshold.

## Implementation notes

Samples are of any type with the comparisons of floating-point numbers. Times are nanoseconds,
and the zero time of Go is no time at all. The evaluation of a batch is one action for each
threshold, so that the channel may be drained in between.
-/

namespace PmxAgents.Telemetry.Thresholds

open Lib Lib.Runs Lib.Binary64

variable {V : Type}

/-- Comparisons of samples, and a sample of seconds as a duration. -/
structure Samples (V : Type) where
  lt : V → V → Bool
  le : V → V → Bool
  zero : V
  duration : V → ℤ

/-- `time.Duration(seconds * float64(time.Second))`, without the sign. -/
def nanos (seconds : Finite) : ℕ := roundUnits (seconds.units * 10 ^ 9) 1 / one

/-- The conversion to a 64-bit integer. Beyond its range the language leaves the value open. -/
def goDuration (overflow : Number → ℤ) : Number → ℤ
  | .finite x =>
      let n : ℤ := if x.negative then -nanos x else nanos x
      if -2 ^ 63 ≤ n ∧ n < 2 ^ 63 then n else overflow (.finite x)
  | x => overflow x

/-- The comparisons and the duration of `float64`. -/
def goSamples (overflow : Number → ℤ) : Samples Number :=
  ⟨Number.lt, Number.le, .finite (.ofNat 0 (Nat.two_pow_pos 53)), goDuration overflow⟩

inductive Severity where
  | warn
  | page
  | other (text : String)
  deriving DecidableEq, Repr

inductive Op where
  | lt
  | gt
  | lte
  | gte
  | rateBelow
  | rateAbove
  | other (text : String)
  deriving DecidableEq, Repr

structure Threshold (V : Type) where
  id : String
  metric : String
  op : Op
  value : V
  forSeconds : V
  severity : Severity
  deriving DecidableEq

structure Metric (V : Type) where
  name : String
  value : V
  deriving DecidableEq

structure Alert (V : Type) where
  thresholdID : String
  metric : String
  value : V
  severity : Severity
  cleared : Bool
  firedAt : ℤ
  deriving DecidableEq

structure ThresholdState (V : Type) where
  rule : Threshold V
  holdingSince : Option ℤ
  firedAt : Option ℤ
  cleared : Bool
  deriving DecidableEq

inductive SetError where
  | idRequired
  | metricRequired
  | unknownOp (op : String)
  | forSecondsNegative
  | unknownSeverity (severity : String)
  deriving DecidableEq, Repr

section Engine
variable (F : Samples V)

def validateThreshold (t : Threshold V) : Except SetError Unit := do
  if t.id = "" then throw .idRequired
  if t.metric = "" then throw .metricRequired
  match t.op with
  | .other op => throw (.unknownOp op)
  | _ => pure ()
  if F.lt t.forSeconds F.zero then throw .forSecondsNegative
  match t.severity with
  | .other severity => throw (.unknownSeverity severity)
  | _ => pure ()

/-- `Engine.Set`: the states of a valid set. -/
def set (thresholds : List (Threshold V)) : Except SetError (List (ThresholdState V)) := do
  thresholds.forM (validateThreshold F)
  pure (thresholds.map fun t => ⟨t, none, none, false⟩)

def evaluate (op : Op) (val threshold : V) : Bool :=
  match op with
  | .lt => F.lt val threshold
  | .gt => F.lt threshold val
  | .lte => F.le val threshold
  | .gte => F.le threshold val
  | .rateBelow => F.lt val threshold
  | .rateAbove => F.lt threshold val
  | .other _ => false

/-- A minute, in nanoseconds. -/
def debounce : ℤ := 60000000000

def ThresholdState.alert (s : ThresholdState V) (val : V) (cleared : Bool) (now : ℤ) : Alert V :=
  ⟨s.rule.id, s.rule.metric, val, s.rule.severity, cleared, now⟩

/-- An alert may fire for the first time, or a minute after the last one, when that is cleared. -/
def ThresholdState.shouldFire (s : ThresholdState V) (now : ℤ) : Bool :=
  match s.firedAt with
  | none => true
  | some firedAt => s.cleared && debounce ≤ now - firedAt

/-- The time from which the condition has held. -/
def ThresholdState.since (s : ThresholdState V) (now : ℤ) : ℤ := s.holdingSince.getD now

/-- A sample for a threshold: the new state, and the alert that is emitted. -/
def ThresholdState.advance (s : ThresholdState V) (val : V) (now : ℤ) :
    ThresholdState V × Option (Alert V) :=
  if evaluate F s.rule.op val s.rule.value then
    if F.duration s.rule.forSeconds ≤ now - s.since now ∧ s.shouldFire now then
      ({ s with holdingSince := some (s.since now), firedAt := some now, cleared := false },
        some (s.alert val false now))
    else ({ s with holdingSince := some (s.since now) }, none)
  else if s.firedAt.isSome ∧ s.cleared = false then
    ({ s with holdingSince := none, cleared := true }, some (s.alert val true now))
  else ({ s with holdingSince := none }, none)

/-- The last value of a batch with the name. -/
def latest (metrics : List (Metric V)) (name : String) : Option V :=
  (metrics.reverse.find? fun m => m.name = name).map (·.value)

def ThresholdState.visit (s : ThresholdState V) (metrics : List (Metric V)) (now : ℤ) :
    ThresholdState V × Option (Alert V) :=
  match latest metrics s.rule.metric with
  | none => (s, none)
  | some val => s.advance F val now

end Engine

/-! ## The engine and its consumer -/

def capacity : ℕ := 256

/-- A batch in evaluation, with the thresholds that are done and those that are not. -/
structure System (V : Type) where
  done : List (ThresholdState V)
  todo : List (ThresholdState V)
  metrics : List (Metric V)
  now : ℤ
  channel : List (Alert V)
  received : List (Alert V)

/-- `NewEngine` with a set. -/
def System.init (states : List (ThresholdState V)) : System V := ⟨states, [], [], 0, [], []⟩

def System.states (s : System V) : List (ThresholdState V) := s.done ++ s.todo

/-- A send that does not wait: without a place in the channel the alert is dropped. -/
def System.send (s : System V) : Option (Alert V) → System V
  | none => s
  | some alert =>
      if s.channel.length < capacity then { s with channel := s.channel ++ [alert] } else s

inductive Action (V : Type) where
  | evaluate (metrics : List (Metric V)) (now : ℤ)
  | visit
  | receive

def step (F : Samples V) (s : System V) : Action V → Option (System V)
  | .evaluate metrics now =>
      if s.todo = [] then some { s with done := [], todo := s.done, metrics := metrics, now := now }
      else none
  | .visit => match s.todo with
      | [] => none
      | t :: rest =>
          let next := t.visit F s.metrics s.now
          some ({ s with done := s.done ++ [next.1], todo := rest }.send next.2)
  | .receive => match s.channel with
      | [] => none
      | alert :: rest => some { s with channel := rest, received := s.received ++ [alert] }

/-- The cleared flags of the alerts of a threshold, in order. -/
def flags (id : String) (alerts : List (Alert V)) : List Bool :=
  (alerts.filter fun a => a.thresholdID = id).map (·.cleared)

/-- There is a place for the alert of the threshold that is evaluated next. -/
def HasRoom (F : Samples V) (s : System V) : Action V → Prop
  | .visit => ∀ t ∈ s.todo.head?, (t.visit F s.metrics s.now).2.isSome → s.channel.length < capacity
  | _ => True

/-! ## Alternation -/

/-- The truth values begin with the given one and change at every place. -/
def Alternates : Bool → List Bool → Prop
  | _, [] => True
  | b, x :: l => x = b ∧ Alternates (!b) l

/-- The value whose turn it is after a list. -/
def turn : Bool → List Bool → Bool
  | b, [] => b
  | b, _ :: l => turn (!b) l

theorem alternates_append {b : Bool} {l l' : List Bool} :
    Alternates b (l ++ l') ↔ Alternates b l ∧ Alternates (turn b l) l' := by
  induction l generalizing b with
  | nil => simp [Alternates, turn]
  | cons x l ih => simp [Alternates, turn, ih, and_assoc]

theorem turn_concat (b : Bool) (l : List Bool) (x : Bool) : turn b (l ++ [x]) = !turn b l := by
  induction l generalizing b with
  | nil => rfl
  | cons y l ih => exact ih (!b)

section Alternation
variable {F : Samples V} {s s' : System V}

/-- An alert was fired and is not cleared. -/
def ThresholdState.firing (t : ThresholdState V) : Bool := t.firedAt.isSome && !t.cleared

/-- What one evaluation can do: no alert, or the one whose turn it is, with the state. -/
def Follows (t : ThresholdState V) (next : ThresholdState V × Option (Alert V)) : Prop :=
  next.1.rule = t.rule ∧
    ((next.2 = none ∧ next.1.firing = t.firing) ∨
      ∃ alert, next.2 = some alert ∧ alert.thresholdID = t.rule.id ∧ alert.cleared = t.firing ∧
        next.1.firing = !t.firing)

theorem firing_of_shouldFire {t : ThresholdState V} {now : ℤ} (h : t.shouldFire now) :
    t.firing = false := by
  rw [ThresholdState.shouldFire] at h
  rw [ThresholdState.firing]
  cases hfired : t.firedAt with
  | none => rfl
  | some firedAt =>
      rw [hfired, Bool.and_eq_true] at h
      rw [h.1]
      rfl

theorem follows_advance (t : ThresholdState V) (val : V) (now : ℤ) :
    Follows t (t.advance F val now) := by
  rw [ThresholdState.advance]
  split_ifs with hholds hfire hclear
  · have hidle := firing_of_shouldFire hfire.2
    exact ⟨rfl, Or.inr ⟨_, rfl, rfl, hidle.symm, by rw [hidle]; rfl⟩⟩
  · exact ⟨rfl, Or.inl ⟨rfl, rfl⟩⟩
  · have hfiring : t.firing = true := by simp [ThresholdState.firing, hclear]
    exact ⟨rfl, Or.inr ⟨_, rfl, rfl, hfiring.symm, by rw [hfiring]; simp [ThresholdState.firing]⟩⟩
  · exact ⟨rfl, Or.inl ⟨rfl, rfl⟩⟩

theorem follows_visit (t : ThresholdState V) (metrics : List (Metric V)) (now : ℤ) :
    Follows t (t.visit F metrics now) := by
  rw [ThresholdState.visit]
  split
  · exact ⟨rfl, Or.inl ⟨rfl, rfl⟩⟩
  · exact follows_advance t _ now

/-- What the consumer has received or finds in the channel. -/
def System.sent (s : System V) : List (Alert V) := s.received ++ s.channel

/-- The alerts of every threshold alternate, and its state says whose turn it is. -/
structure Alternating (states : List (ThresholdState V)) (sent : List (Alert V)) : Prop where
  distinct : (states.map (·.rule.id)).Nodup
  alternates : ∀ id, Alternates false (flags id sent)
  turns : ∀ t ∈ states, turn false (flags t.rule.id sent) = t.firing

@[simp] theorem flags_append (id : String) (alerts others : List (Alert V)) :
    flags id (alerts ++ others) = flags id alerts ++ flags id others := by
  simp [flags]

theorem flags_singleton (id : String) (alert : Alert V) :
    flags id [alert] = if alert.thresholdID = id then [alert.cleared] else [] := by
  rw [flags, List.filter_singleton]
  split_ifs with h
  · simp [h]
  · simp [h]

/-- One threshold goes on, and what it emits is sent. -/
theorem Alternating.visit {before after : List (ThresholdState V)} {t t' : ThresholdState V}
    {emitted : Option (Alert V)} {sent : List (Alert V)}
    (h : Alternating (before ++ t :: after) sent) (hnext : Follows t (t', emitted)) :
    Alternating (before ++ t' :: after) (sent ++ emitted.toList) := by
  obtain ⟨hrule, hnext⟩ := hnext
  replace hrule : t'.rule = t.rule := hrule
  have hmem : t ∈ before ++ t :: after := by simp
  have hothers : ∀ u ∈ before ++ after, u ∈ before ++ t :: after ∧ u.rule.id ≠ t.rule.id := by
    have hdistinct := h.distinct
    rw [List.map_append, List.map_cons, List.nodup_middle, List.nodup_cons,
      ← List.map_append] at hdistinct
    intro u hu
    refine ⟨?_, fun heq => hdistinct.1 (List.mem_map.mpr ⟨u, hu, heq⟩)⟩
    exact (List.perm_middle.mem_iff).mpr (List.mem_cons_of_mem _ hu)
  refine ⟨by simpa [hrule] using h.distinct, fun id => ?_, fun u hu => ?_⟩
  · rcases hnext with ⟨rfl, -⟩ | ⟨alert, rfl, hid, hcleared, -⟩
    · simpa using h.alternates id
    · rw [Option.toList_some, flags_append, flags_singleton, alternates_append]
      refine ⟨h.alternates id, ?_⟩
      split_ifs with heq
      · refine ⟨?_, trivial⟩
        rw [hcleared, ← h.turns t hmem, ← hid, heq]
      · trivial
  · rcases List.mem_cons.mp (List.perm_middle.mem_iff.mp hu) with rfl | hu
    · rw [hrule]
      rcases hnext with ⟨rfl, hsame⟩ | ⟨alert, rfl, hid, -, hflip⟩
      · simpa using (h.turns t hmem).trans hsame.symm
      · rw [Option.toList_some, flags_append, flags_singleton, if_pos hid, turn_concat,
          h.turns t hmem]
        exact hflip.symm
    · obtain ⟨hold, hne⟩ := hothers u hu
      rw [← h.turns u hold]
      rcases hnext with ⟨rfl, -⟩ | ⟨alert, rfl, hid, -⟩
      · simp
      · rw [Option.toList_some, flags_append, flags_singleton,
          if_neg fun heq => hne (heq.symm.trans hid), List.append_nil]

theorem alternating_step {action : Action V} (h : Alternating s.states s.sent)
    (hroom : HasRoom F s action) (hstep : step F s action = some s') :
    Alternating s'.states s'.sent := by
  cases action with
  | evaluate metrics now =>
      rw [step] at hstep
      split_ifs at hstep with htodo
      obtain rfl := Option.some.inj hstep
      rw [System.states, htodo, List.append_nil] at h
      exact h
  | visit =>
      rw [step] at hstep
      cases htodo : s.todo with
      | nil =>
          rw [htodo] at hstep
          cases hstep
      | cons t rest =>
          simp only [htodo] at hstep
          have hstates : s.states = s.done ++ t :: rest := by rw [System.states, htodo]
          have hfollows := follows_visit (F := F) t s.metrics s.now
          have hplace := hroom t (by rw [htodo]; rfl)
          generalize t.visit F s.metrics s.now = next at hstep hfollows hplace
          obtain ⟨t', emitted⟩ := next
          obtain rfl := Option.some.inj hstep
          have hnext := (hstates ▸ h).visit hfollows
          cases emitted with
          | none => simpa [System.send, System.states, System.sent] using hnext
          | some alert => simpa [System.send, System.states, System.sent, hplace rfl] using hnext
  | receive =>
      rw [step] at hstep
      cases hchannel : s.channel with
      | nil =>
          rw [hchannel] at hstep
          cases hstep
      | cons alert rest =>
          rw [hchannel] at hstep
          obtain rfl := Option.some.inj hstep
          simpa [System.states, System.sent, hchannel] using h

theorem alternating_set {thresholds : List (Threshold V)} {states : List (ThresholdState V)}
    (hset : set F thresholds = .ok states) (hdistinct : (thresholds.map (·.id)).Nodup) :
    Alternating states [] := by
  rw [set, Checks.bind_eq_ok] at hset
  obtain ⟨-, -, hset⟩ := hset
  obtain rfl := Except.ok.inj hset
  refine ⟨by simpa [Function.comp_def] using hdistinct, fun id => trivial, fun t ht => ?_⟩
  obtain ⟨rule, -, rfl⟩ := List.mem_map.mp ht
  rfl

end Alternation

/-- As long as every alert finds a place in the channel, what is received for a threshold
alternates and begins with an alert that fires. -/
theorem received_alternates (F : Samples V) (thresholds : List (Threshold V))
    (hdistinct : (thresholds.map (·.id)).Nodup) (states : List (ThresholdState V))
    (hset : set F thresholds = .ok states) (actions : List (Action V)) (s : System V)
    (hroom : Admits (step F) (HasRoom F) (System.init states) actions)
    (hrun : exec (step F) (System.init states) actions = some s) (id : String) :
    Alternates false (flags id s.received) := by
  have hinv : Alternating s.states s.sent := by
    refine @exec_invariant _ _ (step F) (HasRoom F) (fun s => Alternating s.states s.sent)
      (fun s a s' hs hok hstep => alternating_step hs hok hstep) _ _ actions ?_ hroom hrun
    simpa [System.init, System.states, System.sent] using alternating_set hset hdistinct
  have hsent := hinv.alternates id
  rw [System.sent, flags_append, alternates_append] at hsent
  exact hsent.1

/-! ## A full channel -/

section Full

instance (F : Samples V) (s : System V) : ∀ a, Decidable (HasRoom F s a)
  | .visit => inferInstanceAs (Decidable (∀ t ∈ s.todo.head?, _))
  | .evaluate _ _ | .receive => .isTrue trivial

instance decidableAlternates : ∀ b l, Decidable (Alternates b l)
  | _, [] => .isTrue trivial
  | b, _ :: l => @instDecidableAnd _ _ _ (decidableAlternates (!b) l)

def low : Number := .finite (.ofNat 0 (Nat.two_pow_pos 53))

def high : Number := .finite (.ofNat 1 (Nat.one_lt_two_pow (by decide)))

/-- One threshold, which fires at once. -/
def load : Threshold Number := ⟨"load", "cpu.load", .gt, low, low, .warn⟩

def sample (value : Number) (now : ℤ) : List (Action Number) :=
  [.evaluate [⟨"cpu.load", value⟩] now, .visit]

/-- The condition holds and ceases to hold, and both alerts are received. -/
def once : List (Action Number) := sample high 0 ++ [.receive] ++ sample low 0 ++ [.receive]

theorem once_alternates :
    ∃ s, exec (step (goSamples fun _ => 0)) (System.init [⟨load, none, none, false⟩]) once =
        some s ∧
      flags "load" s.received = [false, true] ∧ Alternates false (flags "load" s.received) := by
  have hrun : (exec (step (goSamples fun _ => 0))
      (System.init [⟨load, none, none, false⟩]) once).any
      (fun s => flags "load" s.received = [false, true]) = true := by decide +kernel
  have hset : set (goSamples fun _ => 0) [load] = .ok [⟨load, none, none, false⟩] := by
    decide +kernel
  obtain ⟨s, hs, hflags⟩ := (Option.any_eq_true _ _).mp hrun
  exact ⟨s, hs, of_decide_eq_true hflags, received_alternates _ [load] (by simp) _ hset once s
    (by decide +kernel) hs "load"⟩

/-- The instant of a time in minutes. -/
def minute (k : ℕ) : ℤ := k * debounce

/-- The condition comes and goes in one minute. -/
def cycle (k : ℕ) : List (Action Number) := sample high (minute k) ++ sample low (minute k)

/-- The condition comes and goes in 128 minutes while nobody receives, which fills the channel. The
next alert that fires is dropped; then one alert is received, and the one that clears comes in. -/
def overrun : List (Action Number) :=
  (List.range 128).flatMap cycle ++ sample high (minute 128) ++ [.receive] ++
    sample low (minute 128) ++ List.replicate 256 .receive

def times (actions : List (Action V)) : List ℤ :=
  actions.filterMap fun
    | .evaluate _ now => some now
    | _ => none

/-- Two alerts that clear are received one after the other. -/
theorem overrun_clears_twice :
    (([load].map (·.id)).Nodup ∧
      set (goSamples fun _ => 0) [load] = .ok [⟨load, none, none, false⟩]) ∧
      (times overrun).IsChain (· ≤ ·) ∧
      ∃ s, exec (step (goSamples fun _ => 0)) (System.init [⟨load, none, none, false⟩]) overrun =
          some s ∧
        ¬ Alternates false (flags "load" s.received) := by
  have hrun : (exec (step (goSamples fun _ => 0))
      (System.init [⟨load, none, none, false⟩]) overrun).any
      (fun s => ¬ Alternates false (flags "load" s.received)) = true := by decide +kernel
  obtain ⟨s, hs, hflags⟩ := (Option.any_eq_true _ _).mp hrun
  exact ⟨⟨by simp, by decide +kernel⟩, by decide +kernel, s, hs, of_decide_eq_true hflags⟩

end Full

end PmxAgents.Telemetry.Thresholds

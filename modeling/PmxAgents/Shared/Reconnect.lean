import Mathlib.Data.List.TakeWhile
import Mathlib.Tactic.IntervalCases

/-!
# The reconnect loops of the WebSocket clients

Both clients dial the backend, serve the connection until it is lost, wait and dial
again. The wait doubles with every round up to a cap. Nothing a round returns flows into
it: a connection that was established does not reset the wait, so that it depends on
the number of rounds alone and not on the number of dials that failed in a row.

## Implementation notes

A run is the list of its rounds. An infinite run is covered by its beginnings: a wait of
it is a wait of the run up to there. Durations are nanoseconds; with a cap of a minute
their doubles are far from the range of the machine integers.
-/

namespace PmxAgents.Shared.Reconnect

def backoffMin : ℕ := 5 * 10 ^ 9

def backoffMax : ℕ := 60 * 10 ^ 9

/-- How a connection ends. -/
inductive ConnectionEnd where
  | onConnect
  | register
  | read
  | ping
  | heartbeat
  | sendResult
  /-- The stream ends without an error, which only the Rust client tells apart. -/
  | closed
  deriving DecidableEq, Repr

/-- What one round of dialing and serving meets. -/
inductive Attempt where
  | dialFailed
  | connected (lost : ConnectionEnd)
  deriving DecidableEq, Repr

def Attempt.isConnected : Attempt → Bool
  | .dialFailed => false
  | .connected _ => true

/-- When the client is told to stop. -/
inductive Phase where
  | beforeAttempt
  | duringAttempt
  | duringWait
  deriving DecidableEq, Repr

structure Round where
  attempt : Attempt
  cancelled : Option Phase
  deriving DecidableEq, Repr

/-- A wait before a reconnect, with what the round before it met, as the client logs it. -/
structure Wait where
  after : Attempt
  backoff : ℕ
  deriving DecidableEq, Repr

/-! ## The Go client -/

def nextBackoff (backoff : ℕ) : ℕ :=
  let backoff := backoff * 2
  if backoff > backoffMax then backoffMax else backoff

/-- The waits of `Run`. The context is asked before and after each connection and in the wait. -/
def run : ℕ → List Round → List Wait
  | _, [] => []
  | backoff, r :: rest =>
      if r.cancelled = some .beforeAttempt then []
      else if r.cancelled = some .duringAttempt then []
      else if r.cancelled = some .duringWait then [⟨r.attempt, backoff⟩]
      else ⟨r.attempt, backoff⟩ :: run (nextBackoff backoff) rest

/-! ## The Rust client -/

/-- The waits of `run`. Shutdown is noticed while a connection is made or served, and not in the
wait. -/
def rustRun : ℕ → List Round → List Wait
  | _, [] => []
  | backoff, r :: rest =>
      if r.cancelled = some .beforeAttempt ∨ r.cancelled = some .duringAttempt then []
      else ⟨r.attempt, backoff⟩ :: rustRun (min (backoff * 2) backoffMax) rest

/-! ## What the wait should be -/

/-- What the rounds up to a place met. -/
def attemptsTo (rounds : List Round) (i : ℕ) : List Attempt :=
  (rounds.map Round.attempt).take (i + 1)

/-- The number of dials that failed in a row since the last connection. Before the first one
the count starts behind the first dial, whose failure makes the client wait for the first time. -/
def failedSince (attempts : List Attempt) : ℕ :=
  if attempts.any Attempt.isConnected then
    (attempts.reverse.takeWhile fun a => !a.isConnected).length
  else attempts.length - 1

/-! ## Doubling up to a cap -/

theorem nextBackoff_eq (backoff : ℕ) : nextBackoff backoff = min (backoff * 2) backoffMax := by
  simp only [nextBackoff]
  split_ifs <;> omega

theorem min_mul_two_pow (x cap i : ℕ) : min (min x cap * 2 ^ i) cap = min (x * 2 ^ i) cap := by
  have hpow : 0 < 2 ^ i := Nat.two_pow_pos i
  rcases le_total x cap with hx | hx
  · rw [min_eq_left hx]
  · have hcap : cap ≤ cap * 2 ^ i := Nat.le_mul_of_pos_right _ hpow
    have hxcap : cap ≤ x * 2 ^ i := hcap.trans (Nat.mul_le_mul_right _ hx)
    rw [min_eq_right hx, min_eq_right hcap, min_eq_right hxcap]

/-- The Go client waits like the Rust client until it is stopped, which it can also be in a wait. -/
theorem run_isPrefix_rustRun (b : ℕ) (rounds : List Round) : run b rounds <+: rustRun b rounds := by
  induction rounds generalizing b with
  | nil => exact List.prefix_refl _
  | cons r rest ih =>
      rw [run, rustRun, nextBackoff_eq]
      by_cases hstop : r.cancelled = some .beforeAttempt ∨ r.cancelled = some .duringAttempt
      · rw [if_pos hstop]
        rcases hstop with h | h <;> simp [h]
      · obtain ⟨hbefore, hduring⟩ := not_or.mp hstop
        rw [if_neg hstop, if_neg hbefore, if_neg hduring]
        split_ifs
        · exact List.cons_prefix_cons.mpr ⟨rfl, List.nil_prefix⟩
        · exact List.cons_prefix_cons.mpr ⟨rfl, ih _⟩

/-- The wait after a round: doubled once for each round before. -/
theorem rustRun_backoff {rounds : List Round} {b i : ℕ} {w : Wait} (hb : b ≤ backoffMax)
    (h : (rustRun b rounds)[i]? = some w) :
    w.backoff = min (b * 2 ^ i) backoffMax ∧ i < rounds.length := by
  induction rounds generalizing b i with
  | nil => simp [rustRun] at h
  | cons r rest ih =>
      rw [rustRun] at h
      split_ifs at h
      · simp at h
      · cases i with
        | zero =>
            obtain rfl := Option.some.inj h
            simpa using hb
        | succ i =>
            rw [List.getElem?_cons_succ] at h
            obtain ⟨hw, hi⟩ := ih (min_le_right _ _) h
            rw [hw, min_mul_two_pow, pow_succ', mul_assoc]
            exact ⟨rfl, by simpa using hi⟩

theorem rustRun_of_run {rounds : List Round} {b i : ℕ} {w : Wait}
    (h : (run b rounds)[i]? = some w) : (rustRun b rounds)[i]? = some w := by
  obtain ⟨rest, hrest⟩ := run_isPrefix_rustRun b rounds
  have hi : i < (run b rounds).length := (List.getElem?_eq_some_iff.mp h).1
  rw [← hrest, List.getElem?_append_left hi, h]

/-- Five seconds reach the cap of a minute with the fourth doubling. -/
theorem min_backoff_eq_iff {i k : ℕ} (hk : k ≤ i) :
    min (backoffMin * 2 ^ i) backoffMax = min (backoffMin * 2 ^ k) backoffMax ↔ k = i ∨ 4 ≤ k := by
  have hcapped : ∀ {n : ℕ}, 4 ≤ n → min (backoffMin * 2 ^ n) backoffMax = backoffMax := by
    intro n hn
    have hpow : 2 ^ 4 ≤ 2 ^ n := Nat.pow_le_pow_right (by decide) hn
    simp only [backoffMin, backoffMax]
    omega
  constructor
  · intro h
    by_contra hne
    obtain ⟨hki, hk4⟩ := not_or.mp hne
    have hlt : k + 1 ≤ i := by omega
    have hpow : 2 ^ (k + 1) ≤ 2 ^ i := Nat.pow_le_pow_right (by decide) hlt
    have hk4 : k < 4 := by omega
    simp only [backoffMin, backoffMax] at h
    interval_cases k <;> omega
  · rintro (rfl | hk4)
    · rfl
    · rw [hcapped hk4, hcapped (hk4.trans hk)]

/-! ## The count -/

theorem length_attemptsTo {rounds : List Round} {i : ℕ} (hi : i < rounds.length) :
    (attemptsTo rounds i).length = i + 1 := by
  rw [attemptsTo, List.length_take, List.length_map]
  omega

/-- Every round but the first counts exactly if no round but perhaps the first one connected. -/
theorem failedSince_cons (a : Attempt) (rest : List Attempt) :
    failedSince (a :: rest) ≤ rest.length ∧
      (failedSince (a :: rest) = rest.length ↔ ∀ b ∈ rest, b.isConnected = false) := by
  by_cases hall : ∀ b ∈ rest, b.isConnected = false
  · have hrev : ∀ b ∈ rest.reverse, (!b.isConnected) = true := fun b hb => by
      rw [hall b (List.mem_reverse.mp hb), Bool.not_false]
    have hlength : failedSince (a :: rest) = rest.length := by
      rw [failedSince, List.reverse_cons, List.takeWhile_append_of_pos hrev]
      split_ifs with hany
      · have ha : a.isConnected = true := by
          rcases List.any_eq_true.mp hany with ⟨b, hb, hconnected⟩
          rcases List.mem_cons.mp hb with rfl | hb
          · exact hconnected
          · rw [hall b hb] at hconnected
            cases hconnected
        simp [ha]
      · simp
    exact ⟨hlength.le, iff_of_true hlength hall⟩
  · -- the count stops at the last connection, which is one of the later rounds
    have hlt : failedSince (a :: rest) < rest.length := by
      have hany : (a :: rest).any Attempt.isConnected = true := by
        push Not at hall
        obtain ⟨b, hb, hconnected⟩ := hall
        exact List.any_eq_true.mpr ⟨b, List.mem_cons_of_mem _ hb, by simpa using hconnected⟩
      have hne : (rest.reverse.takeWhile fun b => !b.isConnected).length ≠ rest.reverse.length := by
        intro hlength
        have hself := (List.takeWhile_prefix _).eq_of_length hlength
        refine hall fun b hb => ?_
        simpa using List.takeWhile_eq_self_iff.mp hself b (List.mem_reverse.mpr hb)
      have hle := (List.takeWhile_prefix (l := rest.reverse) fun b => !b.isConnected).length_le
      rw [failedSince, if_pos hany, List.reverse_cons, List.takeWhile_append, if_neg hne]
      rw [List.length_reverse] at hne hle
      omega
    exact ⟨hlt.le, iff_of_false hlt.ne hall⟩

/-- A wait is the one for the dials that have failed since the last connection exactly if no round
but perhaps the first one has connected so far, or the last four dials have failed, so that the
cap is reached either way. -/
theorem wait_eq_iff (rounds : List Round) (i : ℕ) :
    (∀ w, (run backoffMin rounds)[i]? = some w →
      (w.backoff = min (backoffMin * 2 ^ failedSince (attemptsTo rounds i)) backoffMax ↔
        (∀ a ∈ (attemptsTo rounds i).tail, a.isConnected = false) ∨
          4 ≤ failedSince (attemptsTo rounds i))) ∧
    ∀ w, (rustRun backoffMin rounds)[i]? = some w →
      (w.backoff = min (backoffMin * 2 ^ failedSince (attemptsTo rounds i)) backoffMax ↔
        (∀ a ∈ (attemptsTo rounds i).tail, a.isConnected = false) ∨
          4 ≤ failedSince (attemptsTo rounds i)) := by
  have hwait : ∀ {b : ℕ}, b = min (backoffMin * 2 ^ i) backoffMax → i < rounds.length →
      (b = min (backoffMin * 2 ^ failedSince (attemptsTo rounds i)) backoffMax ↔
        (∀ a ∈ (attemptsTo rounds i).tail, a.isConnected = false) ∨
          4 ≤ failedSince (attemptsTo rounds i)) := by
    rintro b rfl hi
    have hlength := length_attemptsTo hi
    cases hattempts : attemptsTo rounds i with
    | nil => simp [hattempts] at hlength
    | cons a rest =>
        obtain rfl : rest.length = i := by simpa [hattempts] using hlength
        obtain ⟨hle, hiff⟩ := failedSince_cons a rest
        rw [min_backoff_eq_iff hle, hiff, List.tail_cons]
  have hmin : backoffMin ≤ backoffMax := by decide
  constructor
  · intro w hw
    obtain ⟨hbackoff, hi⟩ := rustRun_backoff hmin (rustRun_of_run hw)
    exact hwait hbackoff hi
  · intro w hw
    obtain ⟨hbackoff, hi⟩ := rustRun_backoff hmin hw
    exact hwait hbackoff hi

/-- Rounds without a request to stop. -/
def uncancelled (attempts : List Attempt) : List Round := attempts.map fun a => ⟨a, none⟩

/-- Two dials fail after the first connection: five, ten and twenty seconds. -/
theorem wait_eq_iff_failing :
    ((run backoffMin (uncancelled [.connected .read, .dialFailed, .dialFailed])).map Wait.backoff =
      [5 * 10 ^ 9, 10 * 10 ^ 9, 20 * 10 ^ 9]) ∧
    ∀ w, (run backoffMin (uncancelled [.connected .read, .dialFailed, .dialFailed]))[2]? = some w →
      w.backoff = min (backoffMin * 2 ^ 2) backoffMax :=
  ⟨by decide, fun w hw => ((wait_eq_iff _ 2).1 w hw).mpr (Or.inl (by decide))⟩

/-- Two connections are lost one after the other, with no failed dial: the second wait is ten
seconds, in both clients. -/
theorem connection_does_not_reset :
    failedSince [.connected .read, .connected .read] = 0 ∧
      (run backoffMin (uncancelled [.connected .read, .connected .read])).map Wait.backoff =
        [5 * 10 ^ 9, 10 * 10 ^ 9] ∧
      (rustRun backoffMin (uncancelled [.connected .read, .connected .read])).map Wait.backoff =
        [5 * 10 ^ 9, 10 * 10 ^ 9] ∧
      10 * 10 ^ 9 ≠ min (backoffMin * 2 ^ 0) backoffMax := by
  decide

end PmxAgents.Shared.Reconnect

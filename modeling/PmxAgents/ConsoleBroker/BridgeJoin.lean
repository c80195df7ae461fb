import PmxAgents.ConsoleBroker.Bridge

/-!
# The end of a session

The bridge starts two copy loops and waits twice, each time for the result of a loop or for the
end of the context. The end of the context does not go away when it was seen. It may therefore
take the place of the results of both loops, and the bridge returns while they still run: what
they have written may not be counted yet, and may be counted later.

If the context does not end before both loops have finished, both waits are for a result. The
counters then are final, and they are what was written unless a write has failed after a part
of its data.
-/

namespace PmxAgents.ConsoleBroker.Bridge

open Lib Lib.Runs

inductive Direction where
  | localToWS
  | wsToLocal
  deriving DecidableEq

/-- `Run` with its two loops. -/
structure System where
  /-- The error of the context, once it has ended. -/
  ctxErr : Option Failure
  closed : Bool
  loop : Direction → Loop
  sent : Direction → Bool
  errCh : List Failure
  /-- How often the join loop has received something. -/
  rounds : ℕ
  firstErr : Option Failure
  startedAt : ℤ
  endedAt : Option ℤ

def System.init (startedAt : ℤ) : System :=
  ⟨none, false, fun _ => .init, fun _ => false, [], 0, none, startedAt, none⟩

inductive Action where
  | cancel (err : Failure)
  | readLocal (data : List UInt8) (err : Option Failure)
  | readMessage (result : Except Failure Message)
  | waited (d : Direction) (err : Option Failure)
  | wrote (d : Direction) (outcome : Outcome)
  | addBytes (d : Direction)
  | addFrame (d : Direction)
  | send (d : Direction)
  | selectDone
  | selectErr
  | finish (now : ℤ)

def System.advance (s : System) (d : Direction) (action : LoopAction) : Option System :=
  ((s.loop d).step action).map fun l => { s with loop := Function.update s.loop d l }

def step (s : System) : Action → Option System
  | .cancel err => if s.ctxErr = none then some { s with ctxErr := some err } else none
  | .readLocal data err =>
      if data.length ≤ bufferSize then s.advance .localToWS (.read (Bridge.readLocal data err))
        else none
  | .readMessage result => s.advance .wsToLocal (.read (Bridge.readMessage result))
  | .waited d err => s.advance d (.waited err)
  -- No write succeeds on a connection that is closed.
  | .wrote d outcome =>
      if s.closed ∧ outcome = .complete then none else s.advance d (.wrote outcome)
  | .addBytes d => s.advance d .addBytes
  | .addFrame d => s.advance d .addFrame
  | .send d => match (s.loop d).phase with
      | .finished err =>
          if s.sent d then none
          else some { s with errCh := s.errCh ++ [err], sent := Function.update s.sent d true }
      | _ => none
  | .selectDone => match s.ctxErr with
      | some err =>
          if s.rounds < 2 then
            some { s with rounds := s.rounds + 1, firstErr := some err, closed := true }
          else none
      | none => none
  | .selectErr => match s.errCh with
      | err :: rest =>
          if s.rounds < 2 then
            some { s with
              rounds := s.rounds + 1, firstErr := s.firstErr.or (some err), closed := true, errCh :=
                rest }
          else none
      | [] => none
  | .finish now =>
      if s.rounds = 2 ∧ s.endedAt = none then some { s with endedAt := some now } else none

/-- The error that is returned with the counters. -/
def System.result (s : System) : Option Failure := returned s.firstErr

/-! ## What is promised -/

def Loop.Finished (l : Loop) : Prop := ∃ err, l.phase = .finished err

/-- The counters are what the connection has taken. -/
def Loop.Exact (l : Loop) : Prop :=
  l.bytes = BitVec.ofNat 64 l.written.length ∧ l.frames = BitVec.ofNat 64 l.writes

/-- Both loops have finished, their counters are exact, and nothing that happens later changes them.
-/
def Final (s : System) : Prop :=
  (∀ d, (s.loop d).Finished) ∧ (∀ d, (s.loop d).Exact) ∧
    ∀ actions s', exec step s actions = some s' → s'.loop = s.loop

/-- The context ends only after both loops, and no write fails after a part of its data. -/
def Orderly (s : System) : Action → Prop
  | .cancel _ => ∀ d, (s.loop d).Finished
  | .wrote _ (.failed part _) => part = 0
  | _ => True

/-! ## One loop -/

section Loops
variable {l l' : Loop} {action : LoopAction}

theorem Loop.step_of_finished (h : l.Finished) (action : LoopAction) : l.step action = none := by
  obtain ⟨err, h⟩ := h
  cases action with
  | read next => exact if_neg (by rw [h]; exact Phase.noConfusion)
  | _ => rw [Loop.step, h]

/-- What is written and not yet counted. -/
def Loop.Counted (l : Loop) : Prop :=
  match l.phase with
  | .countingBytes data _ =>
      l.bytes + BitVec.ofNat 64 data.length = BitVec.ofNat 64 l.written.length ∧
        l.frames + 1 = BitVec.ofNat 64 l.writes
  | .countingFrame _ =>
      l.bytes = BitVec.ofNat 64 l.written.length ∧ l.frames + 1 = BitVec.ofNat 64 l.writes
  | _ => l.Exact

theorem Loop.Counted.exact (h : l.Counted) (hfinished : l.Finished) : l.Exact := by
  obtain ⟨err, hphase⟩ := hfinished
  rw [Loop.Counted, hphase] at h
  exact h

theorem counted_next {bytes frames : BitVec 64} {written : List UInt8} {writes : ℕ}
    {rest : Option Failure} (h : (⟨.reading, bytes, frames, written, writes⟩ : Loop).Exact) :
    (⟨.next rest, bytes, frames, written, writes⟩ : Loop).Counted := by
  cases rest with
  | none => exact h
  | some err => exact h

/-- A read leads to the next round, or to data for which there is a wait. -/
def Phase.AfterRead : Phase → Prop
  | .reading => True
  | .waiting _ _ => True
  | .finished _ => True
  | _ => False

theorem Loop.Counted.step (h : l.Counted) (hread : ∀ next, action = .read next → next.AfterRead)
    (hpart : ∀ part err, action = .wrote (.failed part err) → part = 0)
    (hstep : l.step action = some l') : l'.Counted := by
  obtain ⟨phase, bytes, frames, written, writes⟩ := l
  cases action with
  | read next =>
      rw [Loop.step] at hstep
      split_ifs at hstep with hphase
      obtain rfl : phase = .reading := hphase
      obtain rfl := Option.some.inj hstep
      have hnext := hread next rfl
      cases next with
      | reading => exact h
      | waiting data rest => exact h
      | finished err => exact h
      | writing data rest => exact hnext.elim
      | countingBytes data rest => exact hnext.elim
      | countingFrame rest => exact hnext.elim
  | waited err =>
      cases phase with
      | waiting data rest =>
          obtain rfl := Option.some.inj hstep
          cases err with
          | none => exact h
          | some err => exact h
      | _ => cases hstep
  | wrote outcome =>
      cases phase with
      | writing data rest =>
          obtain rfl := Option.some.inj hstep
          cases outcome with
          | complete =>
              obtain ⟨hbytes, hframes⟩ := h
              refine ⟨?_, ?_⟩
              · show bytes + _ = _
                rw [List.length_append, BitVec.ofNat_add, ← hbytes]
              · show frames + 1 = _
                rw [BitVec.ofNat_add, ← hframes]
                rfl
          | failed part err =>
              obtain rfl := hpart part err rfl
              show Loop.Exact ⟨_, bytes, frames, written ++ data.take 0, writes⟩
              rw [List.take_zero, List.append_nil]
              exact h
      | _ => cases hstep
  | addBytes =>
      cases phase with
      | countingBytes data rest =>
          obtain rfl := Option.some.inj hstep
          exact h
      | _ => cases hstep
  | addFrame =>
      cases phase with
      | countingFrame rest =>
          obtain rfl := Option.some.inj hstep
          exact counted_next h
      | _ => cases hstep

theorem afterRead_next (err : Option Failure) : (Phase.next err).AfterRead := by
  cases err with
  | none => trivial
  | some err => trivial

theorem afterRead_readLocal (data : List UInt8) (err : Option Failure) :
    (Bridge.readLocal data err).AfterRead := by
  rw [Bridge.readLocal]
  split_ifs
  · exact afterRead_next err
  · trivial

theorem afterRead_readMessage (result : Except Failure Message) :
    (Bridge.readMessage result).AfterRead := by
  cases result with
  | error err => trivial
  | ok m =>
      rw [Bridge.readMessage]
      split_ifs
      · trivial
      · trivial
      · trivial

end Loops

/-! ## The system -/

section Steps
variable {s s' : System} {action : Action}

/-- What a step can do, with the loop that it advances. -/
inductive Moved (s : System) : Action → System → Prop
  | advance {action : Action} (d : Direction) (loopAction : LoopAction) (l : Loop)
      (hstep : (s.loop d).step loopAction = some l)
      (hread : ∀ next, loopAction = .read next → next.AfterRead)
      (hwrote : ∀ outcome, loopAction = .wrote outcome → action = .wrote d outcome) :
      Moved s action { s with loop := Function.update s.loop d l }
  | cancel (err : Failure) (hlive : s.ctxErr = none) :
      Moved s (.cancel err) { s with ctxErr := some err }
  | send (d : Direction) (err : Failure) (hfinished : (s.loop d).phase = .finished err)
      (hsent : s.sent d = false) :
      Moved s (.send d) { s with errCh := s.errCh ++ [err], sent := Function.update s.sent d true }
  | selectDone (err : Failure) (hdone : s.ctxErr = some err) (hrounds : s.rounds < 2) :
      Moved s .selectDone { s with rounds := s.rounds + 1, firstErr := some err, closed := true }
  | selectErr (err : Failure) (rest : List Failure) (herr : s.errCh = err :: rest)
      (hrounds : s.rounds < 2) :
      Moved s .selectErr { s with
        rounds := s.rounds + 1, firstErr := s.firstErr.or (some err), closed := true, errCh :=
          rest }
  | finish (now : ℤ) (hrounds : s.rounds = 2) (hrunning : s.endedAt = none) :
      Moved s (.finish now) { s with endedAt := some now }

theorem moved_of_advance {d : Direction} {loopAction : LoopAction}
    (hread : ∀ next, loopAction = .read next → next.AfterRead)
    (hwrote : ∀ outcome, loopAction = .wrote outcome → action = .wrote d outcome)
    (h : s.advance d loopAction = some s') : Moved s action s' := by
  obtain ⟨l, hl, rfl⟩ := Option.map_eq_some_iff.mp h
  exact .advance d loopAction l hl hread hwrote

theorem moved (h : step s action = some s') : Moved s action s' := by
  cases action with
  | cancel err =>
      rw [step] at h
      split_ifs at h with hlive
      obtain rfl := Option.some.inj h
      exact .cancel err hlive
  | readLocal data err =>
      rw [step] at h
      split_ifs at h
      refine moved_of_advance ?_ (by simp) h
      rintro next hnext
      obtain rfl := LoopAction.read.inj hnext
      exact afterRead_readLocal data err
  | readMessage result =>
      refine moved_of_advance ?_ (by simp) h
      rintro next hnext
      obtain rfl := LoopAction.read.inj hnext
      exact afterRead_readMessage result
  | waited d err => exact moved_of_advance (by simp) (by simp) h
  | wrote d outcome =>
      rw [step] at h
      split_ifs at h
      refine moved_of_advance (by simp) ?_ h
      rintro other hother
      rw [LoopAction.wrote.inj hother]
  | addBytes d => exact moved_of_advance (by simp) (by simp) h
  | addFrame d => exact moved_of_advance (by simp) (by simp) h
  | send d =>
      rw [step] at h
      cases hphase : (s.loop d).phase with
      | finished err =>
          simp only [hphase] at h
          split_ifs at h with hsent
          obtain rfl := Option.some.inj h
          exact .send d err hphase (Bool.eq_false_iff.mpr hsent)
      | _ => simp [hphase] at h
  | selectDone =>
      rw [step] at h
      split at h
      · rename_i err hdone
        split_ifs at h with hrounds
        obtain rfl := Option.some.inj h
        exact .selectDone err hdone hrounds
      · cases h
  | selectErr =>
      rw [step] at h
      cases herr : s.errCh with
      | nil => simp [herr] at h
      | cons err rest =>
          simp only [herr] at h
          split_ifs at h with hrounds
          obtain rfl := Option.some.inj h
          exact .selectErr err rest herr hrounds
  | finish now =>
      rw [step] at h
      split_ifs at h with hdone
      obtain rfl := Option.some.inj h
      exact .finish now hdone.1 hdone.2

/-- A loop that has finished stays as it is. -/
theorem loop_of_finished {d : Direction} (hfinished : (s.loop d).Finished)
    (hmoved : Moved s action s') : s'.loop d = s.loop d := by
  cases hmoved with
  | advance d' loopAction l hstep hread hwrote =>
      by_cases hd : d = d'
      · subst hd
        rw [Loop.step_of_finished hfinished] at hstep
        cases hstep
      · exact Function.update_of_ne hd l s.loop
  | _ => rfl

/-- The results that the loops have handed over. -/
def System.handedOver (s : System) : ℕ := (s.sent .localToWS).toNat + (s.sent .wsToLocal).toNat

/-- As long as the context is alive, every wait has received a result. -/
structure Inv (s : System) : Prop where
  counted : ∀ d, (s.loop d).Counted
  sent : ∀ d, s.sent d = true → (s.loop d).Finished
  ctx : s.ctxErr.isSome → ∀ d, (s.loop d).Finished
  rounds : s.ctxErr = none → s.rounds + s.errCh.length = s.handedOver
  ended : s.endedAt.isSome → s.rounds = 2

theorem inv_init (startedAt : ℤ) : Inv (.init startedAt) where
  counted _ := ⟨rfl, rfl⟩
  sent _ h := absurd h Bool.false_ne_true
  ctx h := absurd h Bool.false_ne_true
  rounds _ := rfl
  ended h := absurd h Bool.false_ne_true

theorem handedOver_send {d : Direction} (hsent : s.sent d = false) (errCh : List Failure) :
    { s with errCh := errCh, sent := Function.update s.sent d true }.handedOver = s.handedOver +
      1 := by
  cases d with
  | localToWS =>
      simp [System.handedOver, hsent]
      omega
  | wsToLocal => simp [System.handedOver, hsent]

theorem Inv.moved (h : Inv s) (horderly : Orderly s action) (hmoved : Moved s action s') :
    Inv s' := by
  have hkept : ∀ d, (s.loop d).Finished → (s'.loop d).Finished := by
    intro d hfinished
    rw [loop_of_finished hfinished hmoved]
    exact hfinished
  cases hmoved with
  | advance d loopAction l hstep hread hwrote =>
      have hpart : ∀ part err, loopAction = .wrote (.failed part err) → part = 0 := by
        intro part err haction
        obtain rfl := hwrote _ haction
        exact horderly
      refine ⟨fun d' => ?_, fun d' hsent => hkept d' (h.sent d' hsent),
        fun hctx d' => hkept d' (h.ctx hctx d'), h.rounds, h.ended⟩
      by_cases hd : d' = d
      · subst hd
        show (Function.update s.loop d' l d').Counted
        rw [Function.update_self]
        exact (h.counted d').step hread hpart hstep
      · show (Function.update s.loop d l d').Counted
        rw [Function.update_of_ne hd]
        exact h.counted d'
  | cancel err hlive =>
      refine ⟨h.counted, h.sent, fun _ => horderly, fun hnone => ?_, h.ended⟩
      cases hnone
  | send d err hfinished hsent =>
      refine ⟨h.counted, fun d' hd' => ?_, h.ctx, fun hlive => ?_, h.ended⟩
      · by_cases hd : d' = d
        · subst hd
          exact ⟨err, hfinished⟩
        · refine h.sent d' ?_
          rwa [← Function.update_of_ne hd true s.sent]
      · rw [handedOver_send hsent, ← h.rounds hlive, List.length_append]
        rfl
  | selectDone err hdone hrounds =>
      refine ⟨h.counted, h.sent, h.ctx, fun hlive => ?_, fun hended => ?_⟩
      · rw [hdone] at hlive
        cases hlive
      · have hbefore := h.ended hended
        omega
  | selectErr err rest herr hrounds =>
      refine ⟨h.counted, h.sent, h.ctx, fun hlive => ?_, fun hended => ?_⟩
      · have hbefore := h.rounds hlive
        rw [herr, List.length_cons] at hbefore
        show s.rounds + 1 + rest.length = s.handedOver
        omega
      · have hbefore := h.ended hended
        omega
  | finish now hrounds hrunning => exact ⟨h.counted, h.sent, h.ctx, h.rounds, fun _ => hrounds⟩

/-- When two results were handed over, both loops have finished. -/
theorem Inv.finished (h : Inv s) (hended : s.endedAt.isSome) (d : Direction) :
    (s.loop d).Finished := by
  by_cases hlive : s.ctxErr = none
  · have hrounds := h.rounds hlive
    rw [h.ended hended, System.handedOver] at hrounds
    have hlocal := Bool.toNat_le (s.sent .localToWS)
    have hws := Bool.toNat_le (s.sent .wsToLocal)
    refine h.sent d (Bool.toNat_eq_one.mp ?_)
    cases d with
    | localToWS => omega
    | wsToLocal => omega
  · exact h.ctx (Option.isSome_iff_ne_none.mpr hlive) d

/-- Nothing that happens after both loops have finished changes them. -/
theorem loop_of_exec (hfinished : ∀ d, (s.loop d).Finished) {actions : List Action}
    (hexec : exec step s actions = some s') : s'.loop = s.loop := by
  have hstep : ∀ t action t', t.loop = s.loop → True → step t action = some t' →
    t'.loop = s.loop := by
    intro t action t' ht _ hstep
    rw [← ht] at hfinished ⊢
    funext d
    exact loop_of_finished (hfinished d) (moved hstep)
  exact exec_invariant hstep rfl (admits_of_forall fun _ _ => trivial) hexec

/-! ## An end of the context in between -/

theorem rounds_le {startedAt : ℤ} {actions : List Action}
    (hexec : exec step (.init startedAt) actions = some s) : s.rounds ≤ 2 := by
  have hstep : ∀ t action t', t.rounds ≤ 2 → True → step t action = some t' → t'.rounds ≤ 2 := by
    intro t action t' ht _ hstep
    cases moved hstep with
    | selectDone err hdone hrounds => exact hrounds
    | selectErr err rest herr hrounds => exact hrounds
    | _ => exact ht
  exact exec_invariant hstep (Nat.zero_le 2) (admits_of_forall fun _ _ => trivial) hexec

/-- Once the context has ended, the waits may end without the loops. -/
theorem exec_selectDone {err : Failure} (hdone : s.ctxErr = some err) (n : ℕ)
    (hrounds : s.rounds + n ≤ 2) :
    ∃ s', exec step s (List.replicate n .selectDone) = some s' ∧ s'.rounds = s.rounds + n ∧
      s'.loop = s.loop ∧ s'.endedAt = s.endedAt := by
  induction n generalizing s with
  | zero => exact ⟨s, rfl, rfl, rfl, rfl⟩
  | succ n ih =>
      have hlt : s.rounds < 2 := by omega
      have hstep : step s .selectDone =
          some { s with rounds := s.rounds + 1, firstErr := some err, closed := true } := by
        rw [step, hdone]
        exact if_pos hlt
      obtain ⟨s', hexec, hrounds', hloop, hended⟩ := ih
        (s := { s with rounds := s.rounds + 1, firstErr := some err, closed := true }) hdone
        (by show s.rounds + 1 + n ≤ 2; omega)
      refine ⟨s', exec_cons.mpr ⟨_, hstep, hexec⟩, ?_, hloop, hended⟩
      rw [hrounds']
      show s.rounds + 1 + n = s.rounds + (n + 1)
      omega

/-- From then on the bridge may return at once, and the loops are where they were. -/
theorem exists_early_return {err : Failure} (hdone : s.ctxErr = some err) (hrounds : s.rounds ≤ 2)
    (hrunning : s.endedAt = none) :
    ∃ actions s', exec step s actions = some s' ∧ s'.endedAt.isSome ∧ s'.loop = s.loop := by
  obtain ⟨t, hexec, hrounds', hloop, hended⟩ := exec_selectDone hdone (2 - s.rounds) (by omega)
  have hfinish : step t (.finish 0) = some { t with endedAt := some 0 } :=
    if_pos ⟨by omega, hended.trans hrunning⟩
  exact ⟨List.replicate (2 - s.rounds) .selectDone ++ [.finish 0], { t with endedAt := some 0 },
    exec_concat.mpr ⟨t, hexec, hfinish⟩, rfl, hloop⟩

end Steps

/-- In every run in which the context ends only after both loops and no write fails after a part of
its data, the bridge returns with final counters. Wherever the context has ended before a loop, it
may return while the loop goes on. -/
theorem final_of_orderly (startedAt : ℤ) :
    (∀ actions s, Admits step Orderly (.init startedAt) actions →
      exec step (.init startedAt) actions = some s → s.endedAt.isSome → Final s) ∧
    ∀ actions s, exec step (.init startedAt) actions = some s → s.ctxErr.isSome → s.endedAt = none →
      (¬ ∀ d, (s.loop d).Finished) → ∃ more s', exec step s more = some s' ∧ s'.endedAt.isSome ∧
        ¬ Final s' := by
  constructor
  · intro actions s hadmits hexec hended
    have hinv : Inv s := exec_invariant (fun t action t' h hok hstep => h.moved hok (moved hstep))
      (inv_init startedAt) hadmits hexec
    have hfinished := hinv.finished hended
    exact ⟨hfinished, fun d => (hinv.counted d).exact (hfinished d),
      fun more s' hmore => loop_of_exec hfinished hmore⟩
  · intro actions s hexec hdone hrunning hloops
    obtain ⟨err, hdone⟩ := Option.isSome_iff_exists.mp hdone
    obtain ⟨more, s', hmore, hended, hloop⟩ := exists_early_return hdone (rounds_le hexec) hrunning
    refine ⟨more, s', hmore, hended, fun hfinal => hloops ?_⟩
    rw [← hloop]
    exact hfinal.1

def endOfFile : Failure := ⟨.eof, "EOF"⟩

/-- One byte to the backend, then both connections end. -/
def orderlySession : List Action :=
  [.readLocal [7] (some endOfFile), .waited .localToWS none, .wrote .localToWS .complete,
    .addBytes .localToWS, .addFrame .localToWS, .send .localToWS, .selectErr,
    .readMessage (.error ⟨.close 1000, "websocket: close 1000 (normal)"⟩), .send .wsToLocal,
      .selectErr,
    .finish 1]

theorem final_of_orderly_session :
    ∃ s, exec step (.init 0) orderlySession = some s ∧ (s.loop .localToWS).bytes = 1 ∧
      s.result = none ∧ Final s := by
  have hadmits : Admits step Orderly (.init 0) orderlySession := by
    simp [orderlySession, Admits, Orderly]
  refine ⟨_, rfl, rfl, rfl, (final_of_orderly 0).1 orderlySession _ hadmits rfl rfl⟩

/-- The context ends while a byte is written and not yet counted. -/
def interrupted : List Action :=
  [.readLocal [7] none, .waited .localToWS none, .wrote .localToWS .complete,
    .cancel ⟨.deadlineExceeded, "context deadline exceeded"⟩, .selectDone, .selectDone, .finish 1]

theorem returns_before_loops :
    ∃ s, exec step (.init 0) interrupted = some s ∧ s.endedAt = some 1 ∧ s.result = none ∧
      (s.loop .localToWS).written = [7] ∧ (s.loop .localToWS).bytes = 0 ∧
      (∀ d, ¬ (s.loop d).Finished) ∧ ¬ Final s := by
  refine ⟨_, rfl, rfl, rfl, rfl, rfl, fun d hd => ?_, fun hfinal => ?_⟩
  · cases d with
    | localToWS =>
        obtain ⟨err, hphase⟩ := hd
        cases hphase
    | wsToLocal =>
        obtain ⟨err, hphase⟩ := hd
        cases hphase
  · obtain ⟨err, hphase⟩ := hfinal.1 .localToWS
    cases hphase

end PmxAgents.ConsoleBroker.Bridge

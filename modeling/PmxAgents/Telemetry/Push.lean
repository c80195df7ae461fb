import Mathlib.Data.Int.Notation
import Mathlib.Data.List.Sort
import PmxAgents.Lib.Ring
import PmxAgents.Lib.Runs

/-!
# The telemetry sender

Batches of metrics go into a ring buffer, and on to the backend while there is a connection.
When a connection is made the batches of the last minute are taken from the ring and sent
again, while the live path goes on.

The ring does not know what has been delivered. A replay is sound if it begins when no batch is
on its way, finds nothing in the ring that was delivered before, and is not overtaken.

## Implementation notes

Every lock section and every send is an action of its own. A batch is nothing but its
timestamps here. Deliveries are in the order of the sends, all of which succeed.
-/

namespace PmxAgents.Telemetry.Push

open Lib Lib.Runs

structure Metric where
  timestamp : ℤ
  deriving DecidableEq, Repr

abbrev Batch := List Metric

/-! ## The ring buffer -/

structure RingBuffer where
  buf : List Batch
  cap : ℕ
  head : ℕ
  size : ℕ
  dropped : ℕ
  length_buf : buf.length = cap
  head_lt : head < cap
  size_le : size ≤ cap

def defaultCapacity : ℕ := 6000

def newRingBuffer (capacity : ℤ) : RingBuffer :=
  let cap := if capacity ≤ 0 then defaultCapacity else capacity.toNat
  have hcap : 0 < cap := by
    dsimp only [cap]
    split_ifs
    · decide
    · omega
  ⟨List.replicate cap [], cap, 0, 0, 0, List.length_replicate, hcap, Nat.zero_le _⟩

/-- The batches of the ring in the order of their insertion. -/
def RingBuffer.contents (r : RingBuffer) : List Batch := Ring.contents [] r.buf r.head r.size

def RingBuffer.push (r : RingBuffer) (batch : Batch) : RingBuffer :=
  if h : r.size = r.cap then
    let head := (r.head + 1) % r.cap
    have hcap : 0 < r.cap := Nat.zero_lt_of_lt r.head_lt
    { r with
      buf := r.buf.set ((head + r.size - 1) % r.cap) batch
      head := head
      dropped := r.dropped + 1
      length_buf := by rw [List.length_set, r.length_buf]
      head_lt := Nat.mod_lt _ hcap }
  else
    { r with
      buf := r.buf.set ((r.head + (r.size + 1) - 1) % r.cap) batch
      size := r.size + 1
      length_buf := by rw [List.length_set, r.length_buf]
      size_le := Nat.lt_of_le_of_ne r.size_le h }

/-- The timestamp of a batch is that of its first metric. -/
def stamp : Batch → ℤ
  | [] => 0
  | m :: _ => m.timestamp

def RingBuffer.drainSince (r : RingBuffer) (cutoff : ℤ) : List Batch :=
  r.contents.filter fun batch => batch ≠ [] ∧ cutoff < stamp batch

/-- A batch comes last, and the first has to go when the ring is full. -/
theorem RingBuffer.contents_push (r : RingBuffer) (batch : Batch) :
    (r.push batch).contents =
      (if r.size = r.cap then r.contents.tail else r.contents) ++ [batch] := by
  rw [RingBuffer.push]
  have hcap : 0 < r.cap := Nat.zero_lt_of_lt r.head_lt
  split_ifs with hfull
  · -- the head moves on, and the new batch takes the place of the first
    obtain ⟨n, hn⟩ : ∃ n, r.size = n + 1 := Nat.exists_eq_add_one.mpr (hfull ▸ hcap)
    have hlt : n < r.buf.length := by
      rw [r.length_buf, ← hfull, hn]
      exact Nat.lt_succ_self n
    have hwrite := Ring.contents_write (d := []) ((r.head + 1) % r.cap) hlt batch
    have hadvance := Ring.contents_advance (d := []) r.buf r.head n
    rw [r.length_buf] at hwrite hadvance
    rw [hadvance, ← hn] at hwrite
    have hplace : (r.head + 1) % r.cap + r.size - 1 = (r.head + 1) % r.cap + n := by omega
    simpa only [RingBuffer.contents, hplace] using hwrite
  · have hlt : r.size < r.buf.length := by
      rw [r.length_buf]
      exact Nat.lt_of_le_of_ne r.size_le hfull
    have hwrite := Ring.contents_write (d := []) r.head hlt batch
    rw [r.length_buf] at hwrite
    have hplace : r.head + (r.size + 1) - 1 = r.head + r.size := by omega
    simpa only [RingBuffer.contents, hplace] using hwrite

/-! ## The sender -/

/-- Where `Run` is with a batch: in the ring, or on its way to the backend. -/
inductive Phase where
  | idle
  | pushed (batch : Batch)
  | sending (batch : Batch)
  deriving DecidableEq, Repr

/-- The calls of `OnConnect` that have noted the connection and not yet read the ring are
counted; those that have read it have batches left to be replayed. -/
structure System where
  ring : RingBuffer
  connected : Bool
  subscribes : List String
  phase : Phase
  waiting : ℕ
  replays : List (List Batch)
  inserted : List Batch
  delivered : List Batch

def System.init (capacity : ℤ) : System :=
  ⟨newRingBuffer capacity, false, ["host.metrics", "host.events"], .idle, 0, [], [], []⟩

inductive Action where
  | receive (batch : Batch)
  | check
  | send
  | connect
  | drain (now : ℤ)
  | replay (i : ℕ)
  | disconnect
  | subscribe (stream : String)
  | unsubscribe (stream : String)

/-- A minute, in nanoseconds. -/
def minute : ℤ := 60000000000

/-- A batch is sent at once. -/
def System.live (s : System) : Bool := s.connected && "host.metrics" ∈ s.subscribes

/-- The batches that come have a metric, and their timestamps increase. -/
def System.accepts (s : System) (batch : Batch) : Prop :=
  batch ≠ [] ∧ ∀ b ∈ s.inserted, stamp b < stamp batch

instance (s : System) (batch : Batch) : Decidable (s.accepts batch) :=
  inferInstanceAs (Decidable (_ ∧ _))

def step (s : System) : Action → Option System
  | .receive batch =>
      if s.phase = .idle ∧ s.accepts batch then
        some { s with
          ring := s.ring.push batch
          phase := .pushed batch
          inserted := s.inserted ++ [batch] }
      else none
  | .check => match s.phase with
      | .pushed batch => some { s with phase := if s.live then .sending batch else .idle }
      | _ => none
  | .send => match s.phase with
      | .sending batch => some { s with phase := .idle, delivered := s.delivered ++ [batch] }
      | _ => none
  | .connect => some { s with connected := true, waiting := s.waiting + 1 }
  | .drain now => match s.waiting with
      | 0 => none
      | n + 1 => some { s with
          waiting := n
          replays := s.replays ++ [s.ring.drainSince (now - minute)] }
  | .replay i => match s.replays[i]? with
      | some (batch :: left) => some { s with
          replays := s.replays.set i left
          delivered := s.delivered ++ [batch] }
      | _ => none
  | .disconnect => some { s with connected := false }
  | .subscribe stream => some { s with subscribes := stream :: s.subscribes }
  | .unsubscribe stream => some { s with subscribes := s.subscribes.filter (· ≠ stream) }

/-- What is left to be replayed. -/
def System.pending (s : System) : List Batch := s.replays.flatten

/-- A replay begins when no batch is on its way and no other is under way, and finds nothing that
was delivered; a batch is not sent at once while a replay is under way. -/
def Undisturbed (s : System) : Action → Prop
  | .drain now => s.phase = .idle ∧ s.pending = [] ∧
      ∀ b ∈ s.ring.drainSince (now - minute), b ∉ s.delivered
  | .check => s.live → s.pending = []
  | _ => True

/-! ## Deliveries -/

def Before (a b : Batch) : Prop := stamp a < stamp b

/-- What is delivered and what is going to be is in order. -/
structure InOrder (s : System) : Prop where
  inserted : s.inserted.Pairwise Before
  nonempty : ∀ b ∈ s.inserted, b ≠ []
  ring : s.ring.contents <:+ s.inserted
  deliveries : (s.delivered ++ s.pending).Pairwise Before
  known : ∀ b ∈ s.delivered ++ s.pending, b ∈ s.inserted
  single : ∀ left ∈ s.replays, left = [] ∨ s.pending = left
  newest : ∀ b, s.phase = .pushed b ∨ s.phase = .sending b →
    b ∈ s.inserted ∧ ∀ b' ∈ s.delivered ++ s.pending, Before b' b
  alone : ∀ b, s.phase = .sending b → s.pending = []

section Steps
variable {s : System}

theorem inOrder_init (capacity : ℤ) : InOrder (System.init capacity) where
  inserted := .nil
  nonempty := nofun
  ring := List.nil_suffix
  deliveries := .nil
  known := nofun
  single := nofun
  newest := by rintro b (h | h) <;> cases h
  alone := nofun

theorem InOrder.receive {batch : Batch} (h : InOrder s) (hbatch : s.accepts batch) :
    InOrder { s with
      ring := s.ring.push batch
      phase := .pushed batch
      inserted := s.inserted ++ [batch] } where
  inserted := List.pairwise_append.mpr ⟨h.inserted, List.pairwise_singleton _ _,
    fun b hb b' hb' => by
      obtain rfl := List.mem_singleton.mp hb'
      exact hbatch.2 b hb⟩
  nonempty := by
    intro b hb
    rcases List.mem_append.mp hb with hb | hb
    · exact h.nonempty b hb
    · exact List.mem_singleton.mp hb ▸ hbatch.1
  ring := by
    have hkept : (if s.ring.size = s.ring.cap then s.ring.contents.tail else s.ring.contents) <:+
        s.inserted := by
      split_ifs
      · exact (List.tail_suffix _).trans h.ring
      · exact h.ring
    obtain ⟨old, hold⟩ := hkept
    refine ⟨old, ?_⟩
    rw [RingBuffer.contents_push, ← List.append_assoc, hold]
  deliveries := h.deliveries
  known := fun b hb => List.mem_append_left _ (h.known b hb)
  single := h.single
  newest := by
    rintro b (hb | hb)
    · obtain rfl := Phase.pushed.inj hb
      exact ⟨by simp, fun b' hb' => hbatch.2 b' (h.known b' hb')⟩
    · cases hb
  alone := nofun

theorem InOrder.check {batch : Batch} (h : InOrder s) (hphase : s.phase = .pushed batch)
    (hfree : s.live → s.pending = []) :
    InOrder { s with phase := if s.live then .sending batch else .idle } where
  inserted := h.inserted
  nonempty := h.nonempty
  ring := h.ring
  deliveries := h.deliveries
  known := h.known
  single := h.single
  newest := by
    rintro b (hb | hb)
    · split_ifs at hb
    · split_ifs at hb
      obtain rfl := Phase.sending.inj hb
      exact h.newest batch (Or.inl hphase)
  alone := by
    intro b hb
    split_ifs at hb with hlive
    exact hfree hlive

theorem InOrder.send {batch : Batch} (h : InOrder s) (hphase : s.phase = .sending batch) :
    InOrder { s with phase := .idle, delivered := s.delivered ++ [batch] } := by
  have hpending := h.alone batch hphase
  obtain ⟨hmem, hnewest⟩ := h.newest batch (Or.inr hphase)
  have hdeliveries := h.deliveries
  have hknown := h.known
  rw [hpending, List.append_nil] at hnewest hdeliveries hknown
  refine ⟨h.inserted, h.nonempty, h.ring, ?_, ?_, h.single, ?_, nofun⟩
  · change ((s.delivered ++ [batch]) ++ s.pending).Pairwise Before
    rw [hpending, List.append_nil]
    refine List.pairwise_append.mpr ⟨hdeliveries, List.pairwise_singleton _ _,
      fun b hb b' hb' => ?_⟩
    obtain rfl := List.mem_singleton.mp hb'
    exact hnewest b hb
  · change ∀ b ∈ (s.delivered ++ [batch]) ++ s.pending, b ∈ s.inserted
    rw [hpending, List.append_nil]
    intro b hb
    rcases List.mem_append.mp hb with hb | hb
    · exact hknown b hb
    · exact List.mem_singleton.mp hb ▸ hmem
  · rintro b (hb | hb) <;> cases hb

theorem RingBuffer.mem_drainSince {r : RingBuffer} {cutoff : ℤ} {b : Batch} :
    b ∈ r.drainSince cutoff ↔ b ∈ r.contents ∧ b ≠ [] ∧ cutoff < stamp b := by
  simp [RingBuffer.drainSince]

/-- What is drained comes after what was delivered, if none of it was. -/
theorem InOrder.before_drained (h : InOrder s) {cutoff : ℤ}
    (hfresh : ∀ b ∈ s.ring.drainSince cutoff, b ∉ s.delivered) :
    ∀ d ∈ s.delivered, ∀ b ∈ s.ring.drainSince cutoff, Before d b := by
  intro d hd b hb
  have hdin : d ∈ s.inserted := h.known d (List.mem_append_left _ hd)
  obtain ⟨hbin, -, hcut⟩ := RingBuffer.mem_drainSince.mp hb
  obtain ⟨old, hold⟩ := h.ring
  have hsorted := h.inserted
  rw [← hold] at hsorted hdin
  rcases List.mem_append.mp hdin with hevicted | hheld
  · exact (List.pairwise_append.mp hsorted).2.2 d hevicted b hbin
  · -- it is in the ring too, and so it is too old to be drained
    have hnonempty := h.nonempty d (h.known d (List.mem_append_left _ hd))
    have hold : ¬ cutoff < stamp d := fun hnew =>
      hfresh d (RingBuffer.mem_drainSince.mpr ⟨hheld, hnonempty, hnew⟩) hd
    rw [Before]
    omega

theorem InOrder.drain (h : InOrder s) (cutoff : ℤ) (n : ℕ) (hidle : s.phase = .idle)
    (hpending : s.pending = []) (hfresh : ∀ b ∈ s.ring.drainSince cutoff, b ∉ s.delivered) :
    InOrder { s with waiting := n, replays := s.replays ++ [s.ring.drainSince cutoff] } := by
  have hnext : System.pending
      { s with waiting := n, replays := s.replays ++ [s.ring.drainSince cutoff] } =
      s.ring.drainSince cutoff := by
    rw [System.pending] at hpending
    rw [System.pending, List.flatten_append, hpending]
    simp
  have hsub : (s.ring.drainSince cutoff).Sublist s.inserted :=
    (List.filter_sublist).trans h.ring.sublist
  have hdeliveries := h.deliveries
  have hknown := h.known
  rw [hpending, List.append_nil] at hdeliveries hknown
  refine ⟨h.inserted, h.nonempty, h.ring, ?_, ?_, ?_, ?_, ?_⟩
  · rw [hnext]
    exact List.pairwise_append.mpr ⟨hdeliveries, h.inserted.sublist hsub, h.before_drained hfresh⟩
  · rw [hnext]
    intro b hb
    rcases List.mem_append.mp hb with hb | hb
    · exact hknown b hb
    · exact hsub.subset hb
  · rw [hnext]
    intro left hleft
    rcases List.mem_append.mp hleft with hleft | hleft
    · exact Or.inl (List.flatten_eq_nil_iff.mp hpending left hleft)
    · exact Or.inr (List.mem_singleton.mp hleft).symm
  · rintro b (hb | hb)
    · cases hidle.symm.trans hb
    · cases hidle.symm.trans hb
  · intro b hb
    cases hidle.symm.trans hb

/-- The one list that is not empty may be exchanged. -/
theorem flatten_set {α : Type} {lists : List (List α)} {i : ℕ} {l : List α} (l' : List α)
    (hi : lists[i]? = some l) (hall : lists.flatten = l) :
    (lists.set i l').flatten = l' ∧ ∀ m ∈ lists.set i l', m = [] ∨ l' = m := by
  obtain ⟨hlt, hget⟩ := List.getElem?_eq_some_iff.mp hi
  have hsplit : lists = lists.take i ++ l :: lists.drop (i + 1) := by
    rw [← hget, List.getElem_cons_drop, List.take_append_drop]
  have hset : lists.set i l' = lists.take i ++ l' :: lists.drop (i + 1) :=
    List.set_eq_take_append_cons_drop.trans (if_pos hlt)
  have hlength : (lists.take i).flatten.length + (l.length + (lists.drop (i + 1)).flatten.length) =
      l.length := by
    rw [← hall]
    conv_rhs => rw [hsplit]
    simp [hall]
  have htake : (lists.take i).flatten = [] := List.length_eq_zero_iff.mp (by omega)
  have hdrop : (lists.drop (i + 1)).flatten = [] := List.length_eq_zero_iff.mp (by omega)
  rw [hset, List.flatten_append, List.flatten_cons, htake, hdrop]
  refine ⟨by simp, fun m hm => ?_⟩
  rcases List.mem_append.mp hm with hm | hm
  · exact Or.inl (List.flatten_eq_nil_iff.mp htake m hm)
  · rcases List.mem_cons.mp hm with rfl | hm
    · exact Or.inr rfl
    · exact Or.inl (List.flatten_eq_nil_iff.mp hdrop m hm)

theorem InOrder.replay {i : ℕ} {batch : Batch} {left : List Batch} (h : InOrder s)
    (hi : s.replays[i]? = some (batch :: left)) :
    InOrder { s with replays := s.replays.set i left, delivered := s.delivered ++ [batch] } := by
  have hpending : s.pending = batch :: left :=
    (h.single _ (List.mem_of_getElem? hi)).resolve_left nofun
  obtain ⟨hnext, hsingle⟩ := flatten_set left hi hpending
  have hsame : (s.delivered ++ [batch]) ++ (s.replays.set i left).flatten =
      s.delivered ++ s.pending := by
    rw [hnext, hpending, List.append_assoc]
    rfl
  refine ⟨h.inserted, h.nonempty, h.ring, ?_, ?_, ?_, ?_, ?_⟩
  · exact hsame ▸ h.deliveries
  · exact hsame ▸ h.known
  · exact fun m hm => (hsingle m hm).imp_right fun heq => hnext.trans heq
  · exact fun b hb => hsame ▸ h.newest b hb
  · intro b hb
    have hnone := h.alone b hb
    rw [hpending] at hnone
    cases hnone

theorem inOrder_step {s' : System} {action : Action} (h : InOrder s)
    (hundisturbed : Undisturbed s action) (hstep : step s action = some s') : InOrder s' := by
  cases action with
  | receive batch =>
      rw [step] at hstep
      split_ifs at hstep with hbatch
      obtain rfl := Option.some.inj hstep
      exact h.receive hbatch.2
  | check =>
      rw [step] at hstep
      cases hphase : s.phase with
      | pushed batch =>
          rw [hphase] at hstep
          obtain rfl := Option.some.inj hstep
          exact h.check hphase hundisturbed
      | idle =>
          rw [hphase] at hstep
          cases hstep
      | sending batch =>
          rw [hphase] at hstep
          cases hstep
  | send =>
      rw [step] at hstep
      cases hphase : s.phase with
      | sending batch =>
          rw [hphase] at hstep
          obtain rfl := Option.some.inj hstep
          exact h.send hphase
      | idle =>
          rw [hphase] at hstep
          cases hstep
      | pushed batch =>
          rw [hphase] at hstep
          cases hstep
  | connect =>
      obtain rfl := Option.some.inj hstep
      exact { h with }
  | drain now =>
      obtain ⟨hidle, hpending, hfresh⟩ := hundisturbed
      rw [step] at hstep
      cases hwaiting : s.waiting with
      | zero =>
          rw [hwaiting] at hstep
          cases hstep
      | succ n =>
          rw [hwaiting] at hstep
          obtain rfl := Option.some.inj hstep
          exact h.drain _ n hidle hpending hfresh
  | replay i =>
      rw [step] at hstep
      split at hstep
      · next batch left hi =>
          obtain rfl := Option.some.inj hstep
          exact h.replay hi
      · cases hstep
  | disconnect =>
      obtain rfl := Option.some.inj hstep
      exact { h with }
  | subscribe stream =>
      obtain rfl := Option.some.inj hstep
      exact { h with }
  | unsubscribe stream =>
      obtain rfl := Option.some.inj hstep
      exact { h with }

end Steps

/-- If no replay is disturbed, no batch is delivered twice and all are in the order of their
insertion. -/
theorem delivered_in_order (capacity : ℤ) (actions : List Action) (s : System)
    (hundisturbed : Admits step Undisturbed (System.init capacity) actions)
    (hrun : exec step (System.init capacity) actions = some s) :
    s.delivered.Nodup ∧ s.delivered.Sublist s.inserted := by
  have h : InOrder s :=
    exec_invariant (fun s a s' hs hok hstep => inOrder_step hs hok hstep) (inOrder_init capacity)
      hundisturbed hrun
  have hsorted : s.delivered.Pairwise Before := (List.pairwise_append.mp h.deliveries).1
  have hnodup : s.delivered.Nodup := hsorted.imp fun hab heq => by
    rw [heq, Before] at hab
    exact lt_irrefl _ hab
  refine ⟨hnodup, ?_⟩
  have hantisymm : Std.Antisymm Before :=
    ⟨fun a b hab hba => absurd (lt_trans hab hba) (lt_irrefl _)⟩
  exact List.sublist_of_subperm_of_pairwise
    (List.subperm_of_subset hnodup fun b hb => h.known b (List.mem_append_left _ hb)) hsorted
    h.inserted

/-! ## A connection that is made again -/

section Reconnect

instance (s : System) : ∀ a, Decidable (Undisturbed s a)
  | .drain _ => inferInstanceAs (Decidable (_ ∧ _ ∧ _))
  | .check => inferInstanceAs (Decidable (_ → _))
  | .receive _ | .send | .connect | .replay _ | .disconnect | .subscribe _ | .unsubscribe _ =>
      .isTrue trivial

def batch (timestamp : ℤ) : Batch := [⟨timestamp⟩]

/-- Two batches are buffered; a connection is made, they are replayed, and a third one is sent at
once. -/
def bufferedFirst : List Action :=
  [.receive (batch 1), .check, .receive (batch 2), .check, .connect, .drain 3, .replay 0, .replay 0,
    .receive (batch 4), .check, .send]

theorem bufferedFirst_in_order :
    ∃ s, exec step (System.init 4) bufferedFirst = some s ∧
      s.delivered = [batch 1, batch 2, batch 4] ∧ s.delivered.Nodup ∧
      s.delivered.Sublist s.inserted := by
  have hrun : (exec step (System.init 4) bufferedFirst).map (·.delivered) =
      some [batch 1, batch 2, batch 4] := by decide +kernel
  obtain ⟨s, hs, hdelivered⟩ := Option.map_eq_some_iff.mp hrun
  exact ⟨s, hs, hdelivered, delivered_in_order 4 bufferedFirst s (by decide +kernel) hs⟩

/-- A batch is sent at once; the connection is lost and made again, two nanoseconds after it. -/
def reconnect : List Action :=
  [.connect, .drain 0, .receive (batch 1), .check, .send, .disconnect, .connect, .drain 3,
    .replay 1]

/-- The batch is delivered once more. -/
theorem reconnect_delivers_twice :
    ∃ s, exec step (System.init 4) reconnect = some s ∧ s.delivered = [batch 1, batch 1] ∧
      ¬ s.delivered.Nodup := by
  have hrun : (exec step (System.init 4) reconnect).map (·.delivered) =
      some [batch 1, batch 1] := by decide
  obtain ⟨s, hs, hdelivered⟩ := Option.map_eq_some_iff.mp hrun
  exact ⟨s, hs, hdelivered, by rw [hdelivered]; decide⟩

end Reconnect

end PmxAgents.Telemetry.Push

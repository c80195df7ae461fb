import PmxAgents.Lib.Cbor
import PmxAgents.Lib.Runs

/-!
# An append-only log whose writes can fail

A log writes one line for each entry and keeps in memory what the next entry is derived
from. An append returns an error when the write or the flush to the disk fails; the
memory then stays as it was, but the file may hold the line or a part of it. Whatever
fails, the entries whose append returned without an error are derived from each other in
order. The file holds their lines and nothing else as long as no failed append leaves a
byte behind.
-/

namespace PmxAgents.Lib.AppendLog

open Cbor Runs

/-- How an entry is derived from the memory and a request, written, and remembered. -/
structure Writer (μ ρ ε : Type*) where
  stamp : μ → ρ → ε
  marshal : ε → Option Bytes
  remember : ε → μ

/-- How far the writing of a line gets. -/
inductive Fate where
  | stored
  /-- The write fails after some bytes. -/
  | writeError (written : ℕ)
  /-- The line is written, but it cannot be flushed to the disk. -/
  | syncError
  deriving DecidableEq, Repr

inductive AppendError where
  | marshal
  | write
  | sync
  deriving DecidableEq, Repr

/-- A log since it was opened, with the entries whose append returned without an error. -/
structure State (μ ε : Type*) where
  file : Bytes
  memory : μ
  completed : List ε

variable {μ ρ ε : Type*} (W : Writer μ ρ ε)

def append (s : State μ ε) (request : ρ) (fate : Fate) : State μ ε × Except AppendError ε :=
  let e := W.stamp s.memory request
  match W.marshal e with
  | none => (s, .error .marshal)
  | some text =>
      let line := text ++ [0x0a]
      match fate with
      | .writeError written => ({ s with file := s.file ++ line.take written }, .error .write)
      | .syncError => ({ s with file := s.file ++ line }, .error .sync)
      | .stored => (⟨s.file ++ line, W.remember e, s.completed ++ [e]⟩, .ok e)

/-- One call, as a step of a run. -/
def step (s : State μ ε) (call : ρ × Fate) : Option (State μ ε) :=
  some (append W s call.1 call.2).1

/-- The call leaves no byte behind unless it succeeds. -/
def LeavesNothing : Fate → Prop
  | .stored => True
  | .writeError written => written = 0
  | .syncError => False

/-- What the log remembers after some entries. -/
def memoryOf (start : μ) (es : List ε) : μ :=
  match es.getLast? with
  | none => start
  | some e => W.remember e

@[simp] theorem memoryOf_concat (start : μ) (es : List ε) (e : ε) :
    memoryOf W start (es ++ [e]) = W.remember e := by
  simp [memoryOf]

/-- Entries each of which is derived from what the log remembers of those before. -/
inductive Derived (start : μ) : List ε → Prop
  | nil : Derived start []
  | concat {es : List ε} {e : ε} {request : ρ} (derived : Derived start es)
      (stamp : e = W.stamp (memoryOf W start es) request) : Derived start (es ++ [e])

/-- The lines of some entries. -/
def fileOf (es : List ε) : Bytes :=
  es.flatMap fun e => match W.marshal e with
    | none => []
    | some text => text ++ [0x0a]

section Steps
variable {W} {start : μ} {s t : State μ ε} {request : ρ} {fate : Fate}

/-- What a call can do: nothing, leave some bytes of a line with an error, or complete. -/
theorem step_cases (h : step W s (request, fate) = some t) :
    t = s ∨
    (∃ text left, W.marshal (W.stamp s.memory request) = some text ∧
      left <+: text ++ [0x0a] ∧ (LeavesNothing fate → left = []) ∧
      t = { s with file := s.file ++ left }) ∨
    ∃ text, W.marshal (W.stamp s.memory request) = some text ∧ fate = .stored ∧
      t = ⟨s.file ++ (text ++ [0x0a]), W.remember (W.stamp s.memory request),
        s.completed ++ [W.stamp s.memory request]⟩ := by
  obtain rfl := Option.some.inj h
  rw [append]
  cases hmarshal : W.marshal (W.stamp s.memory request) with
  | none => exact Or.inl rfl
  | some text =>
      cases fate with
      | stored => exact Or.inr (Or.inr ⟨text, rfl, rfl, rfl⟩)
      | writeError written =>
          refine Or.inr (Or.inl ⟨text, _, rfl, List.take_prefix written _, ?_, rfl⟩)
          rintro rfl
          rfl
      | syncError => exact Or.inr (Or.inl ⟨text, _, rfl, List.prefix_refl _, False.elim, rfl⟩)

/-- The memory is that of the completed entries, which are derived from each other. -/
structure InOrder (W : Writer μ ρ ε) (start : μ) (s : State μ ε) : Prop where
  memory : s.memory = memoryOf W start s.completed
  derived : Derived W start s.completed

theorem InOrder.step (h : InOrder W start s) (ht : step W s (request, fate) = some t) :
    InOrder W start t := by
  rcases step_cases ht with rfl | ⟨text, left, -, -, -, rfl⟩ | ⟨text, -, -, rfl⟩
  · exact h
  · exact ⟨h.memory, h.derived⟩
  · exact ⟨(memoryOf_concat W start _ _).symm, h.derived.concat (by rw [h.memory])⟩

/-- The log as it is opened. -/
def State.opened (base : Bytes) (start : μ) : State μ ε := ⟨base, start, []⟩

theorem inOrder_opened (base : Bytes) : InOrder W start (State.opened base start) := ⟨rfl, .nil⟩

/-- After every run the completed entries are in order, whatever failed. -/
theorem inOrder_of_exec {base : Bytes} {calls : List (ρ × Fate)}
    (hrun : exec (AppendLog.step W) (State.opened base start) calls = some t) :
    InOrder W start t := by
  have hadmits : Admits (AppendLog.step W) (fun _ _ => True) (State.opened base start) calls :=
    admits_of_forall fun _ _ => trivial
  exact exec_invariant (fun s call t hs _ ht => hs.step ht) (inOrder_opened base) hadmits hrun

theorem fileOf_concat {es : List ε} {e : ε} {text : Bytes} (h : W.marshal e = some text) :
    fileOf W (es ++ [e]) = fileOf W es ++ (text ++ [0x0a]) := by
  simp [fileOf, h]

/-- The file holds, behind what it was opened with, the lines of the completed entries, each of
which has some property. -/
structure Whole (W : Writer μ ρ ε) (start : μ) (base : Bytes) (P : ε → Prop) (s : State μ ε) :
    Prop where
  inOrder : InOrder W start s
  file : s.file = base ++ fileOf W s.completed
  marshals : ∀ e ∈ s.completed, (W.marshal e).isSome
  good : ∀ e ∈ s.completed, P e

/-- No failed append leaves a byte behind, and the entry of one that succeeds has the property. -/
def Clean (W : Writer μ ρ ε) (P : ε → Prop) (s : State μ ε) (call : ρ × Fate) : Prop :=
  LeavesNothing call.2 ∧ (call.2 = .stored →
    (W.marshal (W.stamp s.memory call.1)).isSome → P (W.stamp s.memory call.1))

theorem Whole.step {base : Bytes} {P : ε → Prop} (h : Whole W start base P s)
    (hclean : Clean W P s (request, fate)) (ht : step W s (request, fate) = some t) :
    Whole W start base P t := by
  have hinOrder := h.inOrder.step ht
  rcases step_cases ht with rfl | ⟨text, left, -, -, hleft, rfl⟩ | ⟨text, htext, hfate, rfl⟩
  · exact h
  · obtain rfl := hleft hclean.1
    exact ⟨hinOrder, by rw [List.append_nil]; exact h.file, h.marshals, h.good⟩
  · refine ⟨hinOrder, by rw [fileOf_concat htext, h.file, List.append_assoc], ?_, ?_⟩
    · exact List.forall_mem_append.mpr ⟨h.marshals, by simp [htext]⟩
    · have hlast := hclean.2 hfate (by rw [htext]; rfl)
      exact List.forall_mem_append.mpr ⟨h.good, by simpa using hlast⟩

theorem whole_of_exec {base : Bytes} {P : ε → Prop} {calls : List (ρ × Fate)}
    (hclean : Admits (AppendLog.step W) (Clean W P) (State.opened base start) calls)
    (hrun : exec (AppendLog.step W) (State.opened base start) calls = some t) :
    Whole W start base P t := by
  have hopened : Whole W start base P (State.opened base start) :=
    ⟨inOrder_opened base, (List.append_nil base).symm, List.forall_mem_nil _, List.forall_mem_nil _⟩
  exact exec_invariant (fun _ _ _ hs hok ht => hs.step hok ht) hopened hclean hrun

end Steps

end PmxAgents.Lib.AppendLog

import PmxAgents.Lib.Runs
import PmxAgents.Updater.Swap

/-!
# Histories of the updater's own directory

The updater installs, rolls back and swaps its own versions. `current` is to lead to an
existing binary whose version is in `VERSION`. Installations see to that by themselves; a
rollback trusts a version that was read from a link earlier, and the updater's own rollback
trusts `previous` and then removes the directory of the version it came from.
-/

namespace PmxAgents.Updater

open Lib Lib.Runs Lib.FileSystem

/-- A layout with the handles that installations have used so far. -/
structure History where
  layout : Layout
  handles : List SwapHandle

inductive SwapOp where
  | install (version : String) (staged : Binary)
  | rollback (handle : SwapHandle)
  | installSelf (handle : SwapHandle) (staged : Binary)
  | rollbackSelf
  deriving DecidableEq, Repr

section Ops
variable (a : Agent)

/-- Carry out an operation that succeeds. The binary of `installSelf` is placed before. -/
def swapStep (s : History) : SwapOp → Option History
  | .install version staged =>
      let (handle, layout) := installNewVersion a version staged s.layout
      some ⟨layout, handle :: s.handles⟩
  | .rollback handle =>
      if handle ∈ s.handles then
        match rollback a handle s.layout with
        | .ok layout => some { s with layout := layout }
        | .error _ => none
      else none
  | .installSelf handle staged =>
      some ⟨installSelf a handle (s.layout.place a handle.newVersion staged), handle :: s.handles⟩
  | .rollbackSelf => some { s with layout := rollbackSelf a s.layout }

/-- If `current` exists, it leads to the binary of a version, which exists, and `VERSION` names
that version. -/
def Resolves (l : Layout) : Prop :=
  ∀ target, l.current = some target →
    ∃ version, a.locate target = a.binary version ∧ (l.files (a.binary version)).isSome ∧
      l.version = some version

/-- The path lies in the directory that the updater's own rollback removes. -/
def Doomed (l : Layout) (p : Path) : Prop :=
  ∃ bad, l.currentVersion a = some bad ∧ a.versionDir bad <+: p

/-- The version of a rollback is still there. For the updater's own rollback it is the one that
`previous` leads to, outside the directory that is removed. -/
def Keeps (s : History) : SwapOp → Prop
  | .install _ _ => True
  | .rollback handle => ∀ old, handle ∈ s.handles → handle.oldVersion = some old →
      (s.layout.files (a.binary old)).isSome
  | .installSelf _ _ => True
  | .rollbackSelf => ∀ target old, s.layout.previous = some target →
      extractVersionFromTarget target a.name = some old →
      Doomed a s.layout (a.dir ++ ["current"]) ∨
        a.locate target = a.binary old ∧ (s.layout.files (a.binary old)).isSome ∧
          ¬ Doomed a s.layout (a.binary old) ∧ ¬ Doomed a s.layout (a.dir ++ ["VERSION"])

end Ops

section Steps
variable {a : Agent} {s t : History} {l : Layout}

theorem resolves_swap (l : Layout) (handle : SwapHandle) (staged : Binary) :
    Resolves a ((l.place a handle.newVersion staged).swap a handle) := by
  intro target htarget
  obtain rfl := Option.some.inj htarget
  refine ⟨handle.newVersion, rfl, ?_, rfl⟩
  simp [Layout.swap, Layout.place]

/-- A link to the binary of a version, with `VERSION` beside it, only needs the binary. -/
theorem resolves_iff_of_target {version : String} (hcurrent : l.current = some (a.target version))
    (hversion : l.version = some version) :
    Resolves a l ↔ (l.files (a.binary version)).isSome := by
  constructor
  · intro h
    obtain ⟨other, -, hfile, hother⟩ := h _ hcurrent
    obtain rfl := Option.some.inj (hversion.symm.trans hother)
    exact hfile
  · intro hfile target htarget
    obtain rfl := Option.some.inj (hcurrent.symm.trans htarget)
    exact ⟨version, rfl, hfile, hversion⟩

/-- What the updater's own rollback leaves, when `previous` names a version. -/
theorem rollbackSelf_spec {target old : String} (hprevious : l.previous = some target)
    (hold : extractVersionFromTarget target a.name = some old) :
    (∀ link, (rollbackSelf a l).current = some link ↔
        ¬ Doomed a l (a.dir ++ ["current"]) ∧ target = link) ∧
      (∀ version, (rollbackSelf a l).version = some version ↔
        ¬ Doomed a l (a.dir ++ ["VERSION"]) ∧ old = version) ∧
      ∀ p, ((rollbackSelf a l).files p).isSome ↔ ¬ Doomed a l p ∧ (l.files p).isSome := by
  cases hbad : l.currentVersion a with
  | none =>
      have hsafe : ∀ p, ¬ Doomed a l p := by
        rintro p ⟨bad, hbad', -⟩
        cases hbad.symm.trans hbad'
      simp [rollbackSelf, hprevious, hold, hbad, hsafe]
  | some bad =>
      have hdoomed : ∀ p, Doomed a l p ↔ a.versionDir bad <+: p := by
        intro p
        simp [Doomed, hbad]
      simp only [rollbackSelf, hprevious, hold, hbad, Layout.removeDirAll, hdoomed]
      refine ⟨fun link => ?_, fun version => ?_, fun p => ?_⟩ <;> split_ifs <;> simp_all

theorem resolves_rollbackSelf_iff {target old : String} (hprevious : l.previous = some target)
    (hold : extractVersionFromTarget target a.name = some old) :
    Resolves a (rollbackSelf a l) ↔
      Doomed a l (a.dir ++ ["current"]) ∨
        a.locate target = a.binary old ∧ (l.files (a.binary old)).isSome ∧
          ¬ Doomed a l (a.binary old) ∧ ¬ Doomed a l (a.dir ++ ["VERSION"]) := by
  obtain ⟨hcurrent, hversion, hfiles⟩ := rollbackSelf_spec hprevious hold
  constructor
  · intro h
    by_cases hdoomed : Doomed a l (a.dir ++ ["current"])
    · exact Or.inl hdoomed
    · right
      obtain ⟨version, hplace, hfile, hnamed⟩ := h target ((hcurrent target).mpr ⟨hdoomed, rfl⟩)
      obtain ⟨hkept, rfl⟩ := (hversion version).mp hnamed
      obtain ⟨hsafe, hexists⟩ := (hfiles _).mp hfile
      exact ⟨hplace, hexists, hsafe, hkept⟩
  · rintro (hdoomed | ⟨hplace, hexists, hsafe, hkept⟩) link hlink
    · exact absurd hdoomed ((hcurrent link).mp hlink).1
    · obtain ⟨-, rfl⟩ := (hcurrent link).mp hlink
      exact ⟨old, hplace, (hfiles _).mpr ⟨hsafe, hexists⟩, (hversion old).mpr ⟨hkept, rfl⟩⟩

/-- The step lemma: an operation leaves a link that resolves exactly if it keeps what it needs. -/
theorem step_resolves_iff (h : Resolves a s.layout) (op : SwapOp) :
    (∀ t, swapStep a s op = some t → Resolves a t.layout) ↔ Keeps a s op := by
  cases op with
  | install version staged =>
      refine iff_of_true (fun t ht => ?_) trivial
      obtain rfl := Option.some.inj ht
      exact resolves_swap s.layout ⟨version, _⟩ staged
  | installSelf handle staged =>
      refine iff_of_true (fun t ht => ?_) trivial
      obtain rfl := Option.some.inj ht
      exact resolves_swap s.layout handle staged
  | rollback handle =>
      rw [Keeps, swapStep]
      split_ifs with hmem
      · cases hold : handle.oldVersion with
        | none => simp [rollback, hold]
        | some old =>
            have hreverted : Resolves a { s.layout with
                current := some (a.target old), version := some old } ↔
                (s.layout.files (a.binary old)).isSome := resolves_iff_of_target rfl rfl
            simpa [rollback, hold, hmem] using hreverted
      · exact iff_of_true nofun fun old hmem' => absurd hmem' hmem
  | rollbackSelf =>
      rw [Keeps]
      have hstep : (∀ t, swapStep a s .rollbackSelf = some t → Resolves a t.layout) ↔
          Resolves a (rollbackSelf a s.layout) := by simp [swapStep]
      rw [hstep]
      cases hprevious : s.layout.previous with
      | none =>
          have hsame : rollbackSelf a s.layout = s.layout := by simp [rollbackSelf, hprevious]
          rw [hsame]
          exact iff_of_true h fun target old htarget => nomatch htarget
      | some target =>
          cases hold : extractVersionFromTarget target a.name with
          | none =>
              have hsame : rollbackSelf a s.layout = s.layout := by
                simp [rollbackSelf, hprevious, hold]
              rw [hsame]
              refine iff_of_true h fun target' old htarget hold' => ?_
              obtain rfl := Option.some.inj htarget
              cases hold.symm.trans hold'
          | some old =>
              rw [resolves_rollbackSelf_iff hprevious hold]
              constructor
              · intro hkeeps target' old' htarget hold'
                obtain rfl := Option.some.inj htarget
                obtain rfl := Option.some.inj (hold.symm.trans hold')
                exact hkeeps
              · intro hkeeps
                exact hkeeps target old rfl hold

end Steps

/-- Along a history that starts in an empty directory, `current` resolves after every operation
exactly if every operation keeps what it needs. -/
theorem resolves_iff_keeps (a : Agent) (ops : List SwapOp) :
    Admits (swapStep a) (fun s op => ∀ t, swapStep a s op = some t → Resolves a t.layout)
        ⟨.empty, []⟩ ops ↔
      Admits (swapStep a) (Keeps a) ⟨.empty, []⟩ ops := by
  have hstep : ∀ s op t, Resolves a s.layout → Keeps a s op → swapStep a s op = some t →
      Resolves a t.layout := fun s op t h hkeeps ht => (step_resolves_iff h op).mpr hkeeps t ht
  refine admits_iff_of_invariant hstep (fun s op h => step_resolves_iff h op) ?_
  intro target hcurrent
  cases hcurrent

/-- One version is installed twice, so that it is its own predecessor: the updater's own rollback
removes it. On a first swap there is no predecessor at all. -/
theorem rollbackSelf_dangling :
    (∃ s, exec (swapStep updaterAgent) ⟨.empty, []⟩
        [.install "1.4.1" [1], .install "1.4.1" [1], .rollbackSelf] = some s ∧
      s.layout.current = some "versions/1.4.1/pmx-updater" ∧
      s.layout.version = some "1.4.1" ∧ s.layout.live updaterAgent = none) ∧
    ∃ s, exec (swapStep updaterAgent) ⟨.empty, []⟩
        [.installSelf ⟨"0.1.0", some "0.0.0"⟩ [1], .rollbackSelf] = some s ∧
      s.layout.current = some "versions/0.0.0/pmx-updater" ∧
      s.layout.version = some "0.0.0" ∧ s.layout.live updaterAgent = none := by
  refine ⟨⟨_, rfl, ?_⟩, ⟨_, rfl, ?_⟩⟩ <;> decide +kernel

end PmxAgents.Updater

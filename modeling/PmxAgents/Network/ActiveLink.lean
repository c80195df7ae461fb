import PmxAgents.Network.Firewall

/-!
# The active ruleset

`active.nft` is to lead to the ruleset that was loaded last. A staged file is renamed
into place before it is loaded, and its name is the caller's: under the revision of the
active ruleset, or under the name `active` itself, the rename already changes what the
link leads to. After a successful call the link leads to the new file, unless the link
is its own target, or the directory is configured by a path that means something else
inside the directory.
-/

namespace PmxAgents.Network

open Lib

section Dir
variable {cfg : Config} {d : Dir} {revision : String}

/-- The characters that `active.nft` leads to. -/
def Dir.activeText (cfg : Config) (d : Dir) : Option String := (d.readActive cfg).map fileText

/-- The file of the revision is what `active.nft` leads to, or takes its place. -/
def Dir.Behind (cfg : Config) (d : Dir) (revision : String) : Prop :=
  revision = "active" ∨ d.link = some revision ∧ cfg.LinksBack

instance : Decidable (d.Behind cfg revision) := inferInstanceAs (Decidable (_ ∨ _ ∧ _))

theorem readActive_promote_of_behind (h : d.Behind cfg revision) :
    (d.promote revision).readActive cfg = d.staged revision := by
  rcases h with rfl | ⟨hlink, hback⟩
  · simp [Dir.readActive, Dir.promote]
  · by_cases hname : revision = "active"
    · simp [Dir.readActive, Dir.promote, hname]
    · simp [Dir.readActive, Dir.promote, hname, hlink, hback]

theorem readActive_promote_of_not_behind (h : ¬ d.Behind cfg revision) :
    (d.promote revision).readActive cfg = d.readActive cfg := by
  obtain ⟨hname, hlink⟩ := not_or.mp h
  cases hd : d.link with
  | none => simp [Dir.readActive, Dir.promote, hname, hd, Function.update_of_ne (Ne.symm hname)]
  | some other =>
      by_cases hback : cfg.LinksBack
      · have hne : other ≠ revision := fun heq => hlink ⟨by rw [hd, heq], hback⟩
        simp [Dir.readActive, Dir.promote, hname, hd, Function.update_of_ne hne]
      · simp [Dir.readActive, Dir.promote, hname, hd, hback]

/-- A link can always be read, wherever it leads. -/
theorem readActivePath_of_link (h : d.link = some revision) :
    ∃ active, readActivePath cfg d = .ok active := by
  rw [readActivePath, h]
  split_ifs
  · exact ⟨none, rfl⟩
  · exact ⟨some revision, rfl⟩

end Dir

section Apply
variable (cfg : Config) (std : Std) (now : Int) (params : ApplyParams) (lockdown : Bool)
variable (s : State)

/-- What a successful call has done to the directory. -/
theorem apply_eq_ok {result : ApplyResult} {t : State}
    (h : Network.apply cfg std now params lockdown none s = (.ok result, t)) :
    ∃ plan : Plan,
      renderRuleset cfg std params.ruleset params.allowSshFrom = .ok plan.rendered ∧
      normalizeRevision params.ruleset.revision now = .ok plan.revision ∧
      t.dir = ((s.dir.stage plan.revision plan.rendered).promote plan.revision).relink
        plan.revision := by
  rw [Network.apply] at h
  cases hprepare : prepare cfg std now params s with
  | error message =>
      rw [hprepare] at h
      cases (Prod.mk.inj h).1
  | ok plan =>
      rw [hprepare] at h
      obtain ⟨-, hrevision, hrendered, -⟩ := prepare_eq_ok hprepare
      refine ⟨plan, hrendered, hrevision, ?_⟩
      rw [← (Prod.mk.inj h).2, Plan.execute]
      -- `active.nft` is removed once more by `relink`
      split_ifs <;> simp [State.load, Dir.relink, Dir.unlink]

/-- After a failed check or a failed load, `active.nft` leads to what it led to before, which is
the ruleset that was loaded last, exactly if it did so before the call and, when the load failed,
the file that was renamed is not the one behind `active.nft` or has the same text. -/
theorem active_kept_iff (plan : Plan) (hprepare : prepare cfg std now params s = .ok plan)
    (stop : Stop) (hnft : stop = .check ∨ stop = .load) :
    (let t := (Network.apply cfg std now params lockdown (some stop) s).2
     t.dir.activeText cfg = s.dir.activeText cfg ∧
       t.dir.activeText cfg = s.loaded.map fileText) ↔
      s.dir.activeText cfg = s.loaded.map fileText ∧
        (stop = .load → s.dir.Behind cfg plan.revision →
          s.loaded.map fileText = some (fileText plan.rendered)) := by
  have hstate : (Network.apply cfg std now params lockdown (some stop) s).2 =
      plan.execute lockdown (some stop) s := by
    rw [Network.apply, hprepare]
  rw [hstate]
  rcases hnft with rfl | rfl
  · exact ⟨fun h => ⟨h.2, fun hload => nomatch hload⟩, fun h => ⟨rfl, h.1⟩⟩
  · have hdir : (plan.execute lockdown (some .load) s).dir =
        (s.dir.stage plan.revision plan.rendered).promote plan.revision := rfl
    dsimp only
    rw [hdir]
    by_cases hbehind : (s.dir.stage plan.revision plan.rendered).Behind cfg plan.revision
    · have hstaged : (s.dir.stage plan.revision plan.rendered).staged plan.revision =
          some plan.rendered := Function.update_self _ _ _
      rw [Dir.activeText, readActive_promote_of_behind hbehind, hstaged, Option.map_some]
      constructor
      · rintro ⟨hsame, hloaded⟩
        exact ⟨hsame.symm.trans hloaded, fun _ _ => hloaded.symm⟩
      · rintro ⟨hsame, hrendered⟩
        have hloaded := hrendered rfl hbehind
        exact ⟨(hsame.trans hloaded).symm, hloaded.symm⟩
    · rw [Dir.activeText, readActive_promote_of_not_behind hbehind]
      exact ⟨fun h => ⟨h.2, fun _ hb => absurd hb hbehind⟩, fun h => ⟨rfl, h.1⟩⟩

/-- Under a revision of its own a failed load keeps the active ruleset. -/
theorem active_kept_otherRevision :
    let s := (Network.apply plainConfig plainStd 0 (oneRule "web" [.accept]) false none .init).2
    let t := (Network.apply plainConfig plainStd 1 (oneRule "mail" [.drop]) false (some .load) s).2
    t.dir.activeText plainConfig = s.dir.activeText plainConfig ∧
      t.dir.activeText plainConfig = s.loaded.map fileText :=
  (active_kept_iff plainConfig plainStd 1 (oneRule "mail" [.drop]) false _ _ rfl .load
    (Or.inr rfl)).mpr ⟨rfl, fun _ hbehind => absurd hbehind (by decide)⟩

/-- Under the revision of the active ruleset a failed load leaves rules in `active.nft` that
were never loaded; under the name `active` it leaves them in the place of the link, and no
further call gets past it. -/
theorem active_replaced :
    let s := (Network.apply plainConfig plainStd 0 (oneRule "web" [.accept]) false none .init).2
    let t := (Network.apply plainConfig plainStd 1 (oneRule "web" [.drop]) false (some .load) s).2
    let u := (Network.apply plainConfig plainStd 1 (oneRule "active" [.drop]) false
      (some .load) s).2
    (s.dir.activeText plainConfig = s.loaded.map fileText ∧ t.loaded = s.loaded ∧
      t.dir.activeText plainConfig ≠ s.loaded.map fileText) ∧
    u.loaded = s.loaded ∧ u.dir.activeText plainConfig ≠ s.loaded.map fileText ∧
    (Network.apply plainConfig plainStd 2 (oneRule "mail" [.accept]) false none u).1 =
      .refused "read active ruleset symlink" := by
  refine ⟨⟨rfl, rfl, ?_⟩, rfl, ?_, rfl⟩ <;> decide +kernel

/-- After a successful call `active.nft` leads to the rendered ruleset and can be read, exactly
if the normalized revision is not the name of the link and the link leads back into the
directory. -/
theorem active_rendered_iff (result : ApplyResult) (t : State)
    (hok : Network.apply cfg std now params lockdown none s = (.ok result, t)) :
    ((∃ rendered, renderRuleset cfg std params.ruleset params.allowSshFrom = .ok rendered ∧
        t.dir.activeText cfg = some (fileText rendered)) ∧
      ∃ active, readActivePath cfg t.dir = .ok active) ↔
      normalizeRevision params.ruleset.revision now ≠ .ok "active" ∧ cfg.LinksBack := by
  obtain ⟨plan, hrendered, hrevision, hdir⟩ := apply_eq_ok cfg std now params lockdown s hok
  rw [hdir, hrevision, ne_eq, Except.ok.injEq]
  by_cases hname : plan.revision = "active"
  · refine iff_of_false (fun h => ?_) fun h => h.1 hname
    obtain ⟨⟨rendered, -, hread⟩, -⟩ := h
    simp [Dir.activeText, Dir.readActive, Dir.relink, Dir.unlink, hname] at hread
  · by_cases hback : cfg.LinksBack
    · have hread : (((s.dir.stage plan.revision plan.rendered).promote plan.revision).relink
          plan.revision).activeText cfg = some (fileText plan.rendered) := by
        simp [Dir.activeText, Dir.readActive, Dir.relink, Dir.unlink, Dir.promote, Dir.stage,
          hname, hback]
      exact iff_of_true ⟨⟨plan.rendered, hrendered, hread⟩, readActivePath_of_link rfl⟩
        ⟨hname, hback⟩
    · refine iff_of_false (fun h => ?_) fun h => hback h.2
      obtain ⟨⟨rendered, -, hread⟩, -⟩ := h
      simp [Dir.activeText, Dir.readActive, Dir.relink, hback] at hread

/-- A revision other than the link's name, in a directory given by an absolute path. -/
theorem active_rendered_web :
    let t := (Network.apply plainConfig plainStd 0 (oneRule "web" [.accept]) false none .init).2
    (∃ rendered, renderRuleset plainConfig plainStd (oneRule "web" [.accept]).ruleset [] =
        .ok rendered ∧ t.dir.activeText plainConfig = some (fileText rendered)) ∧
      ∃ active, readActivePath plainConfig t.dir = .ok active :=
  (active_rendered_iff plainConfig plainStd 0 (oneRule "web" [.accept]) false .init _ _ rfl).mpr
    ⟨by decide, by decide⟩

/-- The revision `active` makes the link its own target, and a directory given by a relative path
makes it lead nowhere. -/
theorem active_leads_nowhere :
    let relative : Config := { plainConfig with workingDir := ["srv"], rulesetDir := "rules" }
    (∃ result t, Network.apply plainConfig plainStd 0 (oneRule "active" [.accept]) false none
        .init = (.ok result, t) ∧ t.loaded.isSome ∧ t.dir.link = some "active" ∧
        t.dir.activeText plainConfig = none) ∧
    ∃ result t, Network.apply relative plainStd 0 (oneRule "web" [.accept]) false none
        .init = (.ok result, t) ∧ t.loaded.isSome ∧ t.dir.activeText relative = none :=
  ⟨⟨_, _, rfl, rfl, rfl, rfl⟩, ⟨_, _, rfl, rfl, by decide⟩⟩

end Apply

end PmxAgents.Network

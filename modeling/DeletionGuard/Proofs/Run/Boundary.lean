import DeletionGuard.Proofs.Run.Removing

/-!
The boundary of a run that removes. Nothing is created or changed, and whatever is gone lay in the
project or at a path that a rule covers, except for what was removed through a link that leads to
itself and was named with a slash at its end: the canonical path of such a link may be made up from
text, and the system removes elsewhere.
-/
namespace DeletionGuard
open FileTree

/-- A location lies in the project, or at or below a path that a rule covers. -/
def Judged.InBounds (j : Judged) (l : Location) : Prop :=
  (Path.mk .single l).isWithin j.batch.projectRoot = true ∨
    ∃ q, covered j.batch.evaluator.guard.rules q = true ∧ (Path.mk .single l).isWithin q = true

namespace World
variable {w : World} {line : List String} {sel sel' : Selection} {j j' : Judged} {s s' : Remover}
  {o : Outcome} {l : Location}

/-- Whatever a run loses is in bounds. -/
def StaysInBounds (w : World) (line : List String) : Prop :=
  ∀ l e, w.tree.find? l = some e → (w.run line).world.tree.find? l = none →
    ∃ sel j s, w.Removing line sel j s ∧ j.InBounds l

theorem isWithin_of_below {p q : Path} (hroot : p.root = .single) (hbelow : p.parts <+: l)
    (hwithin : p.isWithin q = true) : (Path.mk .single l).isWithin q = true := by
  obtain ⟨hq, hparts⟩ := (Path.isWithin_iff _ _).mp hwithin
  exact (Path.isWithin_iff _ _).mpr ⟨hroot.symm.trans hq, hparts.trans hbelow⟩

theorem inBounds_of_loses (hremoving : w.Removing line sel j s)
    (hloses : s.Loses (.start w) j.outcomes o l)
    (hastray : ¬w.Astray j.batch.evaluator.base o.raw) : j.InBounds l := by
  obtain ⟨t, b, -, -, hpermission, hplace⟩ := permission_of_loses hremoving hloses
  obtain ⟨⟨hroot, -⟩, hbelow⟩ := hplace hastray
  obtain hcovered | hwithin := hpermission.covered_or_isWithin
  · refine .inr ⟨t.resolved, hcovered, ?_⟩
    exact (Path.isWithin_iff _ _).mpr ⟨hroot.symm, hbelow⟩
  · exact .inl (isWithin_of_below hroot hbelow hwithin)

theorem Removing.judged_unique (h : w.Removing line sel j s) (h' : w.Removing line sel' j' s') :
    j' = j := by
  obtain ⟨dryRun, useTrash, verbose, hread, -⟩ := h.read
  obtain ⟨dryRun', useTrash', verbose', hread', -⟩ := h'.read
  rw [hread] at hread'
  cases hread'
  exact Except.ok.inj (h'.judged.symm.trans h.judged)

/-- A run creates and changes nothing, and it stays in bounds just if what it loses for links that
lead to themselves does. -/
theorem staysInBounds_iff (w : World) (words : List String) :
    (w.run ("rm" :: words)).world.tree.PartOf w.tree ∧
      (w.StaysInBounds ("rm" :: words) ↔
        ∀ sel j s, w.Removing ("rm" :: words) sel j s → ∀ o l,
          w.Astray j.batch.evaluator.base o.raw → s.Loses (.start w) j.outcomes o l →
          j.InBounds l) := by
  refine ⟨run_remove_partOf w words, fun hstays sel j s hremoving o l _ hloses => ?_, ?_⟩
  · obtain ⟨e, hbefore⟩ := hloses.exists_find? (PartOf.refl _)
    have hafter := hloses.gone
    rw [← world_of_removing hremoving] at hafter
    obtain ⟨sel', j', s', hremoving', hin⟩ := hstays l e hbefore hafter
    rwa [hremoving.judged_unique hremoving'] at hin
  · intro hastray l e hbefore hafter
    obtain ⟨sel, j, s, o, hremoving, hloses⟩ := exists_removing hbefore hafter
    refine ⟨sel, j, s, hremoving, ?_⟩
    by_cases ho : w.Astray j.batch.evaluator.base o.raw
    · exact hastray sel j s hremoving o l ho hloses
    · exact inBounds_of_loses hremoving hloses ho

/-- The link `l` leads to itself. Its text collapses to `/p/d/sub`, but `d` is a link out of the
project. -/
def circleWorld : World where
  tree := ((FileTree.empty.put ["o", "sub"] (.dir .nothing)).put ["p", "d"] (.link "/o")).put
    ["p", "l"] (.link "l/../d/sub")
  cwd := "/p"
  env := [("SAFE_RM_CONFIG", "/c")]
  users := []
  ownHome := none
  git := none
  trashError := none

theorem not_staysInBounds_circle : ¬circleWorld.StaysInBounds ["rm", "-r", "l/"] := by
  intro hstays
  obtain ⟨sel, j, s, ⟨⟨dryRun, useTrash, verbose, hread, -⟩, hjudged⟩, hin⟩ :=
    hstays ["o", "sub"] (.dir .nothing) (by decide +kernel) (by decide +kernel)
  have hselects : (circleWorld.readLine ["rm", "-r", "l/"]).toOption =
      some ⟨.remove ⟨⟨true, false⟩, none, ["l/"]⟩ false false, false⟩ := by decide +kernel
  rw [hread] at hselects
  cases hselects
  have hguard : (circleWorld.judgeSelection ⟨⟨true, false⟩, none, ["l/"]⟩).toOption.map
      (fun j => (j.batch.projectRoot, j.batch.evaluator.guard.rules)) =
      some (⟨.single, ["p"]⟩, []) := by decide +kernel
  rw [hjudged] at hguard
  obtain ⟨hroot, hrules⟩ := Prod.mk.inj (Option.some.inj hguard)
  obtain hin | ⟨q, hq, -⟩ := hin
  · rw [hroot] at hin
    exact absurd hin (by decide)
  · rw [hrules] at hq
    exact absurd hq nofun

end World
end DeletionGuard

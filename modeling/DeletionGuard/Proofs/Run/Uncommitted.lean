import DeletionGuard.Proofs.Run.Removing

/-!
The restricted policy over a whole run. Every leaf that a removal can reach was listed before
anything was removed, and was judged by its canonical path; so what is lost without a rule lies in
the project and holds nothing that is not committed.
-/
namespace DeletionGuard
open FileTree
variable {w : World} {t : Target} {p : Path} {oracle : Git.Oracle} {e : Entry} {l : Location}
  {v : Verdict}

namespace Guard
variable {g : Guard}

theorem clean_of_applyPolicy (hpolicy : g.policy = .restricted oracle)
    (h : g.applyPolicy w t = .allow false) : (oracle.status w t.resolved).isDirty = false := by
  unfold applyPolicy at h
  rw [hpolicy] at h
  dsimp only at h
  unfold Verdict.ofStatus at h
  split at h
  · exact absurd h nofun
  · rename_i hclean
    simpa using hclean

theorem clean_of_decide (hpolicy : g.policy = .restricted oracle)
    (hcovered : covered g.rules t.resolved = false) (h : (g.decide w t).blocked = false) :
    t.resolved.isWithin g.projectRoot = true ∧ (oracle.status w t.resolved).isDirty = false := by
  unfold Guard.decide at h
  cases hboundary : g.boundary t with
  | some v =>
    rw [hboundary, Option.getD_some] at h
    cases v with
    | block b => exact absurd h nofun
    | allow b =>
      rw [(Evaluator.covered_of_boundary hboundary).2] at hcovered
      exact absurd hcovered nofun
  | none =>
    rw [hboundary, Option.getD_none] at h
    obtain ⟨-, hwithin⟩ := Evaluator.isWithin_of_boundary hboundary
    cases hverdict : g.applyPolicy w t with
    | block b =>
      rw [hverdict] at h
      exact absurd h nofun
    | allow b =>
      obtain rfl := Evaluator.applyPolicy_allow hverdict
      unfold Target.isWithin at hwithin
      exact ⟨(Bool.and_eq_true_iff.mp hwithin).1, clean_of_applyPolicy hpolicy hverdict⟩

end Guard

namespace Evaluator
variable {ev : Evaluator}

theorem clean_of_judge (hpolicy : ev.guard.policy = .restricted oracle)
    (hp : World.Rooted w.tree.Occupied p) (hne : p.parts ≠ [])
    (hcovered : covered ev.guard.rules p = false) (h : ev.judge w p.text = .ok v)
    (hv : v.blocked = false) :
    p.isWithin ev.guard.projectRoot = true ∧ (oracle.status w p).isDirty = false := by
  unfold judge at h
  cases hresolve : w.resolve ev.base p.text with
  | error x =>
    rw [hresolve] at h
    cases x with
    | failure f => exact absurd h nofun
    | unverifiable u =>
      rw [← Except.ok.inj h] at hv
      exact absurd hv nofun
  | ok t =>
    rw [hresolve] at h
    rw [← Except.ok.inj h] at hv
    obtain ⟨-, rfl⟩ := World.resolved_of_place hp hne hresolve
    exact Guard.clean_of_decide hpolicy hcovered hv

/-- An entry that is no directory is lost without a rule only if it lies in the project and is
clean. -/
theorem clean_of_permission (hpolicy : ev.guard.policy = .restricted oracle)
    (h : ev.Permission w t false) (hplaced : t.Placed w.tree) (hbelow : t.resolved.parts <+: l)
    (hfind : w.tree.find? l = some e) (hfile : e.isDir = false)
    (hcovered : covered ev.guard.rules ⟨.single, l⟩ = false) :
    (Path.mk .single l).isWithin ev.guard.projectRoot = true ∧
      (oracle.status w ⟨.single, l⟩).isDirty = false := by
  cases h with
  | single hwithin hleaf hallow =>
    -- nothing lies below a target that is no directory, so it is what was lost
    have hdir : w.tree.isDir t.resolved.parts = false := hplaced.isDir_eq.trans hleaf
    have hpath : t.resolved = ⟨.single, l⟩ := by
      rw [← hplaced.1, ← eq_of_below hbelow hfind hdir]
    unfold Target.isWithin at hwithin
    rw [← hpath]
    exact ⟨(Bool.and_eq_true_iff.mp hwithin).1, Guard.clean_of_applyPolicy hpolicy hallow⟩
  | tree hwithin hdir hallow =>
    -- the listing of leaves held what was lost, under its canonical path
    obtain ⟨-, leaves, hleaves, hjudged⟩ := judgeTree_allow hallow
    have hmem := World.leavesBelow_complete (hplaced.solid hdir) hleaves hbelow hfind hfile
    obtain ⟨v, hv, hblocked⟩ := hjudged _ hmem
    have hne : l ≠ [] := ne_nil_of_find? hfind hfile
    have hplace : World.Rooted w.tree.Occupied ⟨.single, l⟩ := ⟨rfl, e, hfind⟩
    exact clean_of_judge hpolicy hplace hne hcovered hv hblocked

end Evaluator

namespace World
variable {line words : List String} {sel : Selection} {j : Judged} {s : Remover}

def Selects (w : World) (line : List String) (sel : Selection) : Prop :=
  ∃ dryRun useTrash verbose, w.readLine line = .ok ⟨.remove sel dryRun useTrash, verbose⟩

theorem Removing.selects (h : w.Removing line sel j s) : w.Selects line sel := by
  obtain ⟨dryRun, useTrash, verbose, hread, -⟩ := h.read
  exact ⟨dryRun, useTrash, verbose, hread⟩

theorem oracle_of_judgeSelection (h : w.judgeSelection sel = .ok j)
    (hstrict : ∀ config, w.loadConfig sel.config = .ok config →
      config.settings.allowProjectDeletion = false) :
    ∃ oracle, j.batch.oracle = some oracle ∧ w.prepareOracle j.batch.projectRoot = .ok oracle ∧
      j.batch.evaluator.guard.policy = .restricted oracle := by
  obtain ⟨config, text, hconfig, -, hbatch, -⟩ := judgeSelection_eq_ok h
  obtain ⟨root, policy, horacle, hpolicy, hevaluator⟩ := startBatch_eq_ok hbatch
  have hroot : j.batch.projectRoot = root := by
    rw [Batch.projectRoot, hevaluator]
  unfold batchOracle at horacle
  rw [hstrict config hconfig, if_neg Bool.false_ne_true] at horacle
  obtain ⟨oracle, hprepare, hsome⟩ := map_eq_ok.mp horacle
  rw [hstrict config hconfig, ← hsome] at hpolicy
  refine ⟨oracle, hsome.symm, by rw [hroot]; exact hprepare, ?_⟩
  rw [hevaluator]
  exact (Except.ok.inj hpolicy).symm

/-- Under a configuration that does not free the whole project, and with no link named with a slash
at its end, a run loses no entry that is not committed but by a rule. -/
theorem uncommitted_survives
    (hstrict : ∀ sel, w.Selects ("rm" :: words) sel → ∀ config,
      w.loadConfig sel.config = .ok config → config.settings.allowProjectDeletion = false)
    (hslash : ∀ sel, w.Selects ("rm" :: words) sel → ∀ cwd, w.getcwd = .ok cwd →
      ∀ raw ∈ sel.paths, Text.endsWith raw "/" = true →
      ∀ target, w.lstat (w.absolutePath (Path.ofString cwd) raw).text ≠ .ok (.link target))
    (hbefore : w.tree.find? l = some e) (hfile : e.isDir = false)
    (hafter : (w.run ("rm" :: words)).world.tree.find? l = none) :
    ∃ sel j s oracle, w.Removing ("rm" :: words) sel j s ∧ j.batch.oracle = some oracle ∧
      w.prepareOracle j.batch.projectRoot = .ok oracle ∧
      (covered j.batch.evaluator.guard.rules ⟨.single, l⟩ = false →
        (∀ o t, s.Loses (.start w) j.outcomes o l → ¬Remover.Allows o t true) →
        (Path.mk .single l).isWithin j.batch.projectRoot = true ∧
          oracle.status w ⟨.single, l⟩ ∈ [.clean, .ignored, .notInRepo]) := by
  obtain ⟨sel, j, s, o, hremoving, hloses⟩ := exists_removing hbefore hafter
  obtain ⟨oracle, horacle, hprepare, hpolicy⟩ :=
    oracle_of_judgeSelection hremoving.judged (hstrict sel hremoving.selects)
  refine ⟨sel, j, s, oracle, hremoving, horacle, hprepare, fun hcovered hbypass => ?_⟩
  obtain ⟨t, b, hallows, hraw, hpermission, hplace⟩ := permission_of_loses hremoving hloses
  obtain rfl : b = false := by
    cases b with
    | false => rfl
    | true => exact absurd hallows (hbypass o t hloses)
  have hastray : ¬w.Astray j.batch.evaluator.base o.raw := by
    rintro ⟨hslashed, ⟨target, hlink⟩, -, -⟩
    obtain ⟨cwd, hcwd, hbase⟩ := base_of_judgeSelection hremoving.judged
    rw [hbase] at hlink
    exact hslash sel hremoving.selects cwd hcwd o.raw hraw hslashed target hlink
  obtain ⟨hplaced, hbelow⟩ := hplace hastray
  obtain ⟨hwithin, hclean⟩ :=
    Evaluator.clean_of_permission hpolicy hpermission hplaced hbelow hbefore hfile hcovered
  refine ⟨hwithin, ?_⟩
  cases hstatus : oracle.status w ⟨.single, l⟩ with
  | clean | ignored | notInRepo => simp
  | modified | staged | untracked =>
    rw [hstatus] at hclean
    exact absurd hclean nofun

def trackedWorld : World where
  tree := (FileTree.empty.put ["c"] (.file "allow_project_deletion = false".toUTF8 .nothing)).put
    ["p", "f"] (.file ByteArray.empty .nothing)
  cwd := "/p"
  env := [("SAFE_RM_CONFIG", "/c")]
  users := []
  ownHome := none
  git := some ⟨⟨0, "/p", ""⟩, ⟨0, "", ""⟩, ⟨0, "f", ""⟩⟩
  trashError := none

theorem eq_of_selects_tracked (h : trackedWorld.Selects ["rm", "f"] sel) :
    sel = ⟨⟨false, false⟩, none, ["f"]⟩ := by
  obtain ⟨dryRun, useTrash, verbose, hread⟩ := h
  have hline : (trackedWorld.readLine ["rm", "f"]).toOption =
      some ⟨.remove ⟨⟨false, false⟩, none, ["f"]⟩ false false, false⟩ := by decide +kernel
  rw [hread] at hline
  cases hline
  rfl

theorem uncommitted_survives_tracked : ∃ sel j s oracle,
    trackedWorld.Removing ["rm", "f"] sel j s ∧ j.batch.oracle = some oracle ∧
      trackedWorld.prepareOracle j.batch.projectRoot = .ok oracle ∧
      (Path.mk .single ["p", "f"]).isWithin j.batch.projectRoot = true ∧
      oracle.status trackedWorld ⟨.single, ["p", "f"]⟩ ∈ [.clean, .ignored, .notInRepo] := by
  have hstrict : ∀ sel, trackedWorld.Selects ["rm", "f"] sel → ∀ config,
      trackedWorld.loadConfig sel.config = .ok config →
        config.settings.allowProjectDeletion = false := by
    intro sel h config hconfig
    rw [eq_of_selects_tracked h] at hconfig
    have hsetting : (trackedWorld.loadConfig none).toOption.map
        (·.settings.allowProjectDeletion) = some false := by decide +kernel
    rw [hconfig] at hsetting
    exact Option.some.inj hsetting
  have hslash : ∀ sel, trackedWorld.Selects ["rm", "f"] sel → ∀ cwd,
      trackedWorld.getcwd = .ok cwd → ∀ raw ∈ sel.paths, Text.endsWith raw "/" = true →
        ∀ target, trackedWorld.lstat
          (trackedWorld.absolutePath (Path.ofString cwd) raw).text ≠ .ok (.link target) := by
    intro sel h cwd _ raw hraw hslashed
    rw [eq_of_selects_tracked h, List.mem_singleton] at hraw
    rw [hraw] at hslashed
    exact absurd hslashed (by decide)
  have hbefore : trackedWorld.tree.find? ["p", "f"] = some (.file ByteArray.empty .nothing) := by
    decide +kernel
  have hafter : (trackedWorld.run ["rm", "f"]).world.tree.find? ["p", "f"] = none := by
    decide +kernel
  obtain ⟨sel, j, s, oracle, hremoving, horacle, hprepare, hsurvives⟩ :=
    uncommitted_survives hstrict hslash hbefore rfl hafter
  have hjudged : (trackedWorld.judgeSelection sel).toOption.map
      (fun j => (j.batch.evaluator.guard.rules, j.outcomes.map Outcome.verdict?)) =
      some ([], [some (.allow false)]) := by
    rw [eq_of_selects_tracked hremoving.selects]
    decide +kernel
  rw [hremoving.judged] at hjudged
  obtain ⟨hrules, hverdicts⟩ := Prod.mk.inj (Option.some.inj hjudged)
  refine ⟨sel, j, s, oracle, hremoving, horacle, hprepare, hsurvives ?_ ?_⟩
  · rw [hrules]
    rfl
  · intro o t hloses hallows
    obtain ⟨hmem, -⟩ := hloses.exists_allows (PartOf.refl _)
    have hverdict : o.verdict? = some (.allow true) := by
      rw [Outcome.verdict?, hallows]
    have hone : o.verdict? ∈ j.outcomes.map Outcome.verdict? := List.mem_map_of_mem hmem
    rw [hverdicts, hverdict] at hone
    exact absurd hone (by decide)

end World
end DeletionGuard

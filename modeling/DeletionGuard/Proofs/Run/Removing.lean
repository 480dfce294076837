import DeletionGuard.Proofs.Run.Printing
import DeletionGuard.Proofs.Run.Verdicts

/-!
Runs that remove. A command line that begins with `rm` leaves the world as it is, or all its paths
are judged first, in the world as it was, and the outcomes are acted on afterwards.
-/
namespace DeletionGuard
namespace World
open FileTree
variable {w : World} {line : List String} {sel : Selection} {j : Judged} {s : Remover} {o : Outcome}
  {l : Location} {e : Entry} {t : Target} {b : Bool}

/-- A command line selects paths, they were judged, and this is how they are removed. -/
structure Removing (w : World) (line : List String) (sel : Selection) (j : Judged) (s : Remover) :
    Prop where
  read : ∃ dryRun useTrash verbose,
    w.readLine line = .ok ⟨.remove sel dryRun useTrash, verbose⟩ ∧
      s = ⟨j.batch.projectRoot, dryRun, useTrash⟩
  judged : w.judgeSelection sel = .ok j

theorem world_of_judgeSelection {t : Transcript} (h : w.judgeSelection sel = .error t) :
    t.world = w := by
  unfold judgeSelection at h
  dsimp only at h
  split at h
  · rw [← Except.error.inj h]
    rfl
  · split at h
    · rw [← Except.error.inj h, Transcript.complain_world]
      rfl
    · split at h
      · rw [← Except.error.inj h]
        rfl
      · split at h
        · rw [← Except.error.inj h]
          rfl
        · exact absurd h nofun

theorem readRemove_eq_ok {words : List String} {i : Invocation} (h : w.readRemove words = .ok i) :
    i.command = .help ∨ ∃ sel dryRun useTrash, i.command = .remove sel dryRun useTrash := by
  obtain ⟨ws, -, h⟩ := bind_eq_ok.mp h
  unfold unlessHelp at h
  split at h
  · rw [← Except.ok.inj h]
    exact .inl rfl
  · obtain ⟨c, hc, rfl⟩ := map_eq_ok.mp h
    obtain ⟨sel, -, rfl⟩ := map_eq_ok.mp hc
    exact .inr ⟨sel, _, _, rfl⟩

theorem world_of_removing (h : w.Removing line sel j s) :
    (w.run line).world = (s.actAll (.start w) j.outcomes).world := by
  obtain ⟨⟨dryRun, useTrash, verbose, hread, rfl⟩, hjudged⟩ := h
  rw [run, hread]
  dsimp only
  rw [runCommand, runRemove, hjudged]
  exact Remover.execute_world _ _ _

theorem world_or_removing (w : World) (words : List String) :
    (w.run ("rm" :: words)).world = w ∨ ∃ sel j s, w.Removing ("rm" :: words) sel j s := by
  unfold run
  cases hread : w.readLine ("rm" :: words) with
  | error m => exact .inl rfl
  | ok i =>
    dsimp only
    have hremove : w.readRemove words = .ok i := hread
    obtain hhelp | ⟨sel, dryRun, useTrash, hcommand⟩ := readRemove_eq_ok hremove
    · rw [hhelp]
      exact .inl rfl
    · rw [hcommand, runCommand, runRemove]
      cases hjudged : w.judgeSelection sel with
      | error t => exact .inl (world_of_judgeSelection hjudged)
      | ok j =>
        refine .inr ⟨sel, j, ⟨j.batch.projectRoot, dryRun, useTrash⟩, ?_, hjudged⟩
        exact ⟨dryRun, useTrash, i.verbose, by rw [← hcommand]; exact hread, rfl⟩

theorem run_remove_partOf (w : World) (words : List String) :
    (w.run ("rm" :: words)).world.tree.PartOf w.tree := by
  obtain h | ⟨sel, j, s, h⟩ := world_or_removing w words
  · rw [h]
    exact PartOf.refl _
  · rw [world_of_removing h]
    exact Remover.actAll_partOf

theorem exists_removing {words : List String} (hbefore : w.tree.find? l = some e)
    (hafter : (w.run ("rm" :: words)).world.tree.find? l = none) :
    ∃ sel j s o, w.Removing ("rm" :: words) sel j s ∧ s.Loses (.start w) j.outcomes o l := by
  obtain h | ⟨sel, j, s, h⟩ := world_or_removing w words
  · rw [h, hbefore] at hafter
    exact absurd hafter nofun
  · rw [world_of_removing h] at hafter
    obtain ⟨o, ho⟩ := Remover.exists_loses hbefore hafter
    exact ⟨sel, j, s, o, h, ho⟩

theorem judgeSelection_eq_ok (h : w.judgeSelection sel = .ok j) : ∃ config text,
    w.loadConfig sel.config = .ok config ∧ w.getcwd = .ok text ∧
      w.startBatch config (Path.ofString text) none none = .ok j.batch ∧
      j.batch.evaluator.process w sel.flags sel.paths = .ok j.outcomes := by
  unfold judgeSelection at h
  dsimp only at h
  split at h
  · exact absurd h nofun
  · rename_i config hconfig
    split at h
    · exact absurd h nofun
    · rename_i text htext
      split at h
      · exact absurd h nofun
      · rename_i batch hbatch
        split at h
        · exact absurd h nofun
        · rename_i outcomes houtcomes
          obtain rfl := Except.ok.inj h
          exact ⟨config, text, hconfig, htext, hbatch, houtcomes⟩

theorem startBatch_eq_ok {config : Config} {cwd : Path} {batch : Batch}
    (h : w.startBatch config cwd none none = .ok batch) : ∃ root policy,
    w.batchOracle config root none = .ok batch.oracle ∧
      Policy.choose config.settings.allowProjectDeletion batch.oracle = .ok policy ∧
      batch.evaluator = ⟨cwd, ⟨config.rules, root, policy⟩⟩ := by
  obtain ⟨root, -, h⟩ := bind_eq_ok.mp h
  obtain ⟨oracle, horacle, h⟩ := bind_eq_ok.mp h
  obtain ⟨policy, hpolicy, rfl⟩ := map_eq_ok.mp h
  exact ⟨root, policy, horacle, hpolicy, rfl⟩

theorem base_of_judgeSelection (h : w.judgeSelection sel = .ok j) : ∃ text,
    w.getcwd = .ok text ∧ j.batch.evaluator.base = Path.ofString text := by
  obtain ⟨config, text, -, htext, hbatch, -⟩ := judgeSelection_eq_ok h
  obtain ⟨root, policy, -, -, hevaluator⟩ := startBatch_eq_ok hbatch
  exact ⟨text, htext, by rw [hevaluator]⟩

theorem evaluate_of_loses (hremoving : w.Removing line sel j s)
    (hloses : s.Loses (.start w) j.outcomes o l) : ∃ t b, Remover.Allows o t b ∧
      o.raw ∈ sel.paths ∧ j.batch.evaluator.evaluate w sel.flags o.raw = .ok o ∧
      (t.Placed w.tree → t.resolved.parts <+: l) := by
  obtain ⟨hmem, t, b, hallows, hbelow⟩ := hloses.exists_allows (PartOf.refl w.tree)
  obtain ⟨config, text, -, -, -, hprocess⟩ := judgeSelection_eq_ok hremoving.judged
  obtain ⟨raw, hraw, hevaluate⟩ := Evaluator.exists_raw_of_process hprocess hmem
  obtain ⟨rfl, -⟩ := Evaluator.permission_of_evaluate hevaluate hallows
  exact ⟨t, b, hallows, hraw, hevaluate, hbelow⟩

/-- What a run loses for an outcome rests on a permission for a target of that argument, and lies
there unless the argument went astray. -/
theorem permission_of_loses (hremoving : w.Removing line sel j s)
    (hloses : s.Loses (.start w) j.outcomes o l) : ∃ t b, Remover.Allows o t b ∧
      o.raw ∈ sel.paths ∧ j.batch.evaluator.Permission w t b ∧
      (¬w.Astray j.batch.evaluator.base o.raw → t.Placed w.tree ∧ t.resolved.parts <+: l) := by
  obtain ⟨t, b, hallows, hraw, hevaluate, hbelow⟩ := evaluate_of_loses hremoving hloses
  obtain ⟨-, hresolve, -, hexists, hpermission⟩ :=
    Evaluator.permission_of_evaluate hevaluate hallows
  refine ⟨t, b, hallows, hraw, hpermission, fun hastray => ?_⟩
  obtain ⟨text, htext, hbase⟩ := base_of_judgeSelection hremoving.judged
  obtain ⟨cwd, -, hcwd⟩ := ofString_getcwd htext
  have hproper : j.batch.evaluator.base.Proper := by
    rw [hbase]
    exact Path.proper_ofString text
  have habs : j.batch.evaluator.base.isAbsolute = true := by
    rw [hbase, hcwd]
    rfl
  have hplaced := placed_of_resolve hproper habs hresolve hexists hastray
  exact ⟨hplaced, hbelow hplaced⟩

end World
end DeletionGuard

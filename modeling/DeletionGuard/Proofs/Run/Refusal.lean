import DeletionGuard.Proofs.Run.Prediction
import DeletionGuard.Proofs.Run.Union

/-!
Arguments to which the way is barred. Where the system cannot walk to the absolute path of an
argument, though nothing on the way is missing or no directory, the argument is refused before any
rule, flag or policy is asked. A run that judges such an argument among others removes nothing for
it and exits with the status of a refusal.
-/
namespace DeletionGuard
open FileTree
variable {w : World} {base : Path} {raw : String} {raws line : List String} {flags : Flags}
  {ev : Evaluator} {u : Unverifiable} {f : Failure} {sel : Selection} {j : Judged}
  {outcomes : List Outcome} {o : Outcome} {l : Location} {e : Entry}

namespace World

/-- The walk to the absolute path of an argument fails, and not for something that is missing or no
directory. -/
def Barred (w : World) (base : Path) (raw : String) : Prop :=
  ∃ errno path, w.lstat (w.absolutePath base raw).text = .error (.call errno path) ∧
    errno ≠ .noEntry ∧ errno ≠ .notDirectory

theorem resolve_of_barred (h : w.Barred base raw) :
    ∃ u, w.resolve base raw = .error (.unverifiable u) := by
  obtain ⟨errno, path, hseen, hentry, hdirectory⟩ := h
  have hobserve : w.observe (w.absolutePath base raw) = .error (.call errno path) := by
    unfold observe
    cases errno with
    | noEntry => exact absurd rfl hentry
    | notDirectory => exact absurd rfl hdirectory
    | _ => simp only [hseen]
  refine ⟨⟨w.absolutePath base raw, some errno⟩, ?_⟩
  simp only [resolve, hobserve]
  rfl

end World

namespace Evaluator
open World

theorem evaluate_of_unverifiable (h : w.resolve ev.base raw = .error (.unverifiable u))
    (flags : Flags) : ev.evaluate w flags raw = .ok ⟨raw, .unverifiable
      ⟨.unreadableDirectory, some (w.absolutePath ev.base raw), none⟩⟩ := by
  unfold evaluate
  rw [h, ← path_of_unverifiable h]
  rfl

end Evaluator

def Command.selection? : Command → Option Selection
  | .remove s _ _ | .check s => some s
  | _ => none

namespace World

/-- A command line asks for a selection to be judged, or judged and removed, and an evaluator is
ready for it before the first path is judged. -/
structure Judging (w : World) (line : List String) (sel : Selection) (ev : Evaluator) : Prop where
  read : ∃ i, w.readLine line = .ok i ∧ i.command.selection? = some sel
  ready : ∃ b, w.Starts sel.config b ∧ b.evaluator = ev

theorem run_eq_runCommand {i : Invocation} (h : w.readLine line = .ok i) :
    (w.run line).finish = (w.runCommand i.command).finish ∧
      (w.run line).world = (w.runCommand i.command).world := by
  rw [run, h]
  exact ⟨rfl, rfl⟩

theorem exists_judged (hclean : w.Clean) (h : w.Judging line sel ev)
    (hraws : ∀ raw ∈ sel.paths, Text.holds Text.nul raw = false) :
    ∃ j, w.judgeSelection sel = .ok j ∧ j.batch.evaluator = ev := by
  obtain ⟨b, hstarts, rfl⟩ := h.ready
  obtain ⟨config, text, -, htext, hbatch⟩ := id hstarts
  obtain ⟨root, policy, -, -, hevaluator⟩ := startBatch_eq_ok hbatch
  have hbase : b.evaluator.base.Clean := by
    rw [hevaluator]
    exact clean_cwd hclean.names htext
  obtain ⟨outcomes, houtcomes⟩ := Evaluator.exists_process hclean hbase hraws sel.flags
  obtain ⟨t, ht⟩ := judgeSelection_of_process hstarts houtcomes
  exact ⟨_, ht, rfl⟩

theorem runCheck_refused (hjudged : w.judgeSelection sel = .ok j)
    (hblocked : ∃ o ∈ j.outcomes, o.blocked = true)
    (hprint : (w.runCommand (.check sel)).Prints) :
    (w.runCommand (.check sel)).finish = .exit 2 := by
  obtain ⟨head, items, -, hrun⟩ := runCheck_judged hjudged hprint
  have hcount : (Tally.ofOutcomes j.outcomes).exitCode = 2 := by
    rw [Tally.exitCode_eq_two, Tally.ofOutcomes_eq]
    exact Nat.ne_of_gt (List.countP_pos_iff.mpr hblocked)
  rw [hrun, ← hcount]
  rfl

theorem runRemove_refused {dryRun useTrash : Bool} (hclean : w.Clean)
    (hjudged : w.judgeSelection sel = .ok j) (hblocked : ∃ o ∈ j.outcomes, o.blocked = true)
    (hprint : (w.runCommand (.remove sel dryRun useTrash)).Prints) :
    (w.runCommand (.remove sel dryRun useTrash)).finish = .exit 2 := by
  have hprocess := exists_process_of_judgeSelection hjudged
  have hfinish := (runRemove_judged hjudged dryRun useTrash).2
  cases hcrash : ((j.remover dryRun useTrash).execute w j.outcomes).crash with
  | none =>
    have hlength := (Evaluator.process_forall₂ hprocess).length_eq.symm
    have haccounted := Remover.accounted_of_complete hcrash hlength
    rw [hcrash, haccounted.blocked hblocked] at hfinish
    exact hfinish
  | some f =>
    have hmarkup := not_isMarkup_of_crash hjudged hprint hcrash
    exact absurd hclean.names (Remover.unclean_of_crash hprocess hcrash hmarkup).2

theorem finish_of_blocked (hclean : w.Clean) (h : w.Judging line sel ev) (hraw : raw ∈ sel.paths)
    (hraws : ∀ raw ∈ sel.paths, Text.holds Text.nul raw = false)
    (hrefused : ∀ o, ev.evaluate w sel.flags raw = .ok o → o.blocked = true)
    (hprint : (w.run line).Prints) : (w.run line).finish = .exit 2 := by
  obtain ⟨⟨command, verbose⟩, hread, hselects⟩ := h.read
  obtain ⟨hfinish, -⟩ := run_eq_runCommand hread
  have hprint : (w.runCommand command).Prints := by
    unfold Transcript.Prints at hprint ⊢
    rwa [hfinish] at hprint
  obtain ⟨j, hjudged, rfl⟩ := exists_judged hclean h hraws
  have hblocked : ∃ o ∈ j.outcomes, o.blocked = true := by
    obtain ⟨o, ho, hevaluate⟩ :=
      Evaluator.exists_outcome_of_process (exists_process_of_judgeSelection hjudged) hraw
    exact ⟨o, ho, hrefused o hevaluate⟩
  rw [hfinish]
  cases command with
  | init | showConfig | showConfigPath | version | help => exact absurd hselects nofun
  | check s =>
    obtain rfl : s = sel := Option.some.inj hselects
    exact runCheck_refused hjudged hblocked hprint
  | remove s dryRun useTrash =>
    obtain rfl : s = sel := Option.some.inj hselects
    exact runRemove_refused hclean hjudged hblocked hprint

theorem runCheck_world (w : World) (sel : Selection) :
    (w.runCommand (.check sel)).world = w := by
  rw [runCommand, runCheck]
  cases hjudged : w.judgeSelection sel with
  | error t => exact world_of_judgeSelection hjudged
  | ok j =>
    dsimp only
    split <;> exact (Transcript.print_world _ _).trans (transcript_of_judgeSelection hjudged).2

theorem exists_loses_of_judging (h : w.Judging line sel ev) (hbefore : w.tree.find? l = some e)
    (hafter : (w.run line).world.tree.find? l = none) : ∃ j s o, w.Removing line sel j s ∧
      j.batch.evaluator = ev ∧ s.Loses (.start w) j.outcomes o l := by
  obtain ⟨⟨command, verbose⟩, hread, hselects⟩ := h.read
  have hworld := (run_eq_runCommand hread).2
  have hstays : (w.run line).world ≠ w := by
    intro hsame
    rw [hsame, hbefore] at hafter
    exact absurd hafter nofun
  cases command with
  | init | showConfig | showConfigPath | version | help => exact absurd hselects nofun
  | check s => exact absurd (hworld.trans (runCheck_world w s)) hstays
  | remove s dryRun useTrash =>
    obtain rfl : s = sel := Option.some.inj hselects
    cases hjudged : w.judgeSelection s with
    | error t =>
      rw [(run_of_unjudged hjudged).2] at hworld
      exact absurd (hworld.trans (world_of_judgeSelection hjudged)) hstays
    | ok j =>
      have hremoving : w.Removing line s j ⟨j.batch.projectRoot, dryRun, useTrash⟩ :=
        ⟨⟨dryRun, useTrash, verbose, hread, rfl⟩, hjudged⟩
      rw [world_of_removing hremoving] at hafter
      obtain ⟨o, hloses⟩ := Remover.exists_loses hbefore hafter
      obtain ⟨b, hstarts, hevaluator⟩ := h.ready
      rw [hstarts.unique (starts_of_judgeSelection hjudged).1] at hevaluator
      exact ⟨j, _, o, hremoving, hevaluator, hloses⟩

end World

namespace Evaluator

/-- What becomes of an argument that is refused because it cannot be verified: it is refused under
all flags, its outcome is acted on without effect, a run that judges it exits with the status of a
refusal, and whatever the run loses it loses for other arguments. -/
structure Refuses (ev : Evaluator) (w : World) (raw : String) : Prop where
  judged : ∀ flags, ev.evaluate w flags raw = .ok ⟨raw, .unverifiable
    ⟨.unreadableDirectory, some (w.absolutePath ev.base raw), none⟩⟩
  idle : ∀ flags o, ev.evaluate w flags raw = .ok o → ∀ (s : Remover) (r : Removals),
    (s.act r o).world = r.world ∧ (s.act r o).trashed = r.trashed
  exits : w.Clean → ∀ line sel, w.Judging line sel ev → raw ∈ sel.paths →
    (∀ other ∈ sel.paths, Text.holds Text.nul other = false) → (w.run line).Prints →
    (w.run line).finish = .exit 2
  spared : ∀ line sel, w.Judging line sel ev → ∀ l e, w.tree.find? l = some e →
    (w.run line).world.tree.find? l = none → ∃ j s o, w.Removing line sel j s ∧
      s.Loses (.start w) j.outcomes o l ∧ o.raw ≠ raw

theorem act_unverifiable (s : Remover) (r : Removals) (raw : String) (b : Block) :
    (s.act r ⟨raw, .unverifiable b⟩).world = r.world ∧
      (s.act r ⟨raw, .unverifiable b⟩).trashed = r.trashed := by
  simp only [Remover.act]
  cases Remover.complaint r.world.screen raw (b.explain s.projectRoot) <;> exact ⟨rfl, rfl⟩

theorem refuses_of_unverifiable (h : w.resolve ev.base raw = .error (.unverifiable u)) :
    ev.Refuses w raw := by
  have hjudged := evaluate_of_unverifiable h
  have houtcome : ∀ flags o, ev.evaluate w flags raw = .ok o → o = ⟨raw, .unverifiable
      ⟨.unreadableDirectory, some (w.absolutePath ev.base raw), none⟩⟩ := by
    intro flags o ho
    rw [hjudged flags] at ho
    exact (Except.ok.inj ho).symm
  refine ⟨hjudged, fun flags o ho s r => ?_, fun hclean line sel hjudging hraw hraws hprint => ?_,
    fun line sel hjudging l e hbefore hafter => ?_⟩
  · rw [houtcome flags o ho]
    exact act_unverifiable s r raw _
  · refine World.finish_of_blocked hclean hjudging hraw hraws (fun o ho => ?_) hprint
    rw [houtcome sel.flags o ho]
    rfl
  · obtain ⟨j, s, o, hremoving, rfl, hloses⟩ :=
      World.exists_loses_of_judging hjudging hbefore hafter
    refine ⟨j, s, o, hremoving, hloses, ?_⟩
    rintro rfl
    obtain ⟨t, bypassed, hallows, -, hevaluate, -⟩ := World.evaluate_of_loses hremoving hloses
    rw [houtcome sel.flags o hevaluate] at hallows
    exact absurd hallows nofun

/-- An argument to which the way is barred is refused under every configuration. -/
theorem refuses_of_barred (h : w.Barred ev.base raw) : ev.Refuses w raw := by
  obtain ⟨u, hu⟩ := World.resolve_of_barred h
  exact refuses_of_unverifiable hu

end Evaluator

namespace World

def barredWorld : World where
  tree := FileTree.empty.put ["p", "x", "f"] (.file ByteArray.empty .nothing)
    |>.put ["p", "g"] (.file ByteArray.empty .nothing)
    |>.put ["c"] (.file "[[allowed_paths]]\npath = \"/p/x\"\nrecursive = true\n".toUTF8 .nothing)
    |>.setDeny ["p", "x"] ⟨false, false, true⟩
  cwd := "/p"
  env := [("SAFE_RM_CONFIG", "/c")]
  users := []
  ownHome := none
  git := none
  trashError := none

def barredEvaluator : Evaluator :=
  ⟨⟨.single, ["p"]⟩, ⟨[⟨⟨.single, ["p", "x"]⟩, true⟩], ⟨.single, ["p"]⟩, .open⟩⟩

theorem clean_barredWorld : barredWorld.Clean where
  names := namesClean_iff.mpr (by decide +kernel)
  links := linksClean_iff.mpr fun x hx target hlink => by
    have hnone : barredWorld.tree.entries.all (!·.2.isLink) = true := by decide +kernel
    have hx := List.all_eq_true.mp hnone x hx
    rw [hlink] at hx
    exact absurd hx nofun
  env := by decide
  users := by decide
  ownHome _ h := absurd h nofun

theorem starts_barredWorld : ∃ b, barredWorld.Starts none b ∧ b.evaluator = barredEvaluator := by
  have hconfig : barredWorld.loadConfig none =
      .ok ⟨⟨true, [⟨"/p/x", true⟩]⟩, [⟨⟨.single, ["p", "x"]⟩, true⟩], some ⟨.single, ["c"]⟩⟩ :=
    toOption_eq_some.mp (by decide +kernel)
  exact ⟨⟨barredEvaluator, none⟩, ⟨_, "/p", hconfig, rfl,
    toOption_eq_some.mp (by decide +kernel)⟩, rfl⟩

theorem refuses_of_barred_search : barredWorld.Barred barredEvaluator.base "x/f" ∧
    barredEvaluator.Refuses barredWorld "x/f" ∧ barredWorld.Clean ∧
    (∃ sel, barredWorld.Judging ["rm", "x/f", "g"] sel barredEvaluator ∧ "x/f" ∈ sel.paths) ∧
    (barredWorld.run ["rm", "x/f", "g"]).finish = .exit 2 ∧
    (barredWorld.run ["rm", "x/f", "g"]).world.tree.find? ["p", "g"] = none := by
  have hbarred : barredWorld.Barred barredEvaluator.base "x/f" :=
    ⟨.noAccess, "/p/x/f", rfl, by decide, by decide⟩
  have hrefuses := Evaluator.refuses_of_barred hbarred
  have hread : barredWorld.readLine ["rm", "x/f", "g"] =
      .ok ⟨.remove ⟨⟨false, false⟩, none, ["x/f", "g"]⟩ false false, false⟩ :=
    toOption_eq_some.mp (by decide +kernel)
  have hjudging := World.Judging.mk ⟨_, hread, rfl⟩ starts_barredWorld
  obtain ⟨hends, hgone⟩ : (barredWorld.run ["rm", "x/f", "g"]).finish.status ≠ 1 ∧
      (barredWorld.run ["rm", "x/f", "g"]).world.tree.find? ["p", "g"] = none := by
    decide +kernel
  have hprints : (barredWorld.run ["rm", "x/f", "g"]).Prints := by
    intro f hf
    rw [hf] at hends
    exact absurd rfl hends
  exact ⟨hbarred, hrefuses, clean_barredWorld, ⟨_, hjudging, by decide⟩,
    hrefuses.exits clean_barredWorld _ _ hjudging (by decide) (by decide) hprints, hgone⟩

end World
end DeletionGuard

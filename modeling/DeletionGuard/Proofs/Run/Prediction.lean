import DeletionGuard.Proofs.Run.Accounting
import DeletionGuard.Proofs.Run.Cells
import DeletionGuard.Proofs.Run.Removing

/-!
What can be known of a run beforehand. A look at the arguments and a run that only tells what it
would remove judge them as the run itself does, so they foretell its counts; only removals that fail
are beyond them.
-/
namespace DeletionGuard
open FileTree
variable {w : World} {s : Selection} {j : Judged} {t : Transcript} {useTrash : Bool}
  {items : List Console.Item} {f : Failure}

namespace Transcript

/-- No line of a run ended it for its text. -/
def Prints (t : Transcript) : Prop :=
  ∀ f, t.finish = .crashed f → f.isMarkup = false

theorem Prints.not_crashed (h : t.Prints) (hmarkup : f.isMarkup = true) :
    t.finish ≠ .crashed f := by
  intro hcrash
  rw [h f hcrash] at hmarkup
  exact Bool.false_ne_true hmarkup

theorem print_ok (t : Transcript) (items : List Console.Item) :
    t.print (items.map .ok) = { t with out := t.out ++ items } := by
  induction items generalizing t with
  | nil => simp [print]
  | cons item items ih => simp [print, ih]

end Transcript

namespace World

theorem transcript_of_judgeSelection (h : w.judgeSelection s = .ok j) :
    j.transcript.out = [] ∧ j.transcript.world = w := by
  unfold judgeSelection at h
  dsimp only at h
  repeat' split at h
  all_goals first | exact Except.ok.inj h ▸ ⟨rfl, rfl⟩ | exact absurd h nofun

theorem exists_process_of_judgeSelection (h : w.judgeSelection s = .ok j) :
    j.batch.evaluator.process w s.flags s.paths = .ok j.outcomes := by
  obtain ⟨config, text, -, -, -, hprocess⟩ := judgeSelection_eq_ok h
  exact hprocess

theorem run_of_unjudged (h : w.judgeSelection s = .error t) :
    w.runCommand (.check s) = t ∧
      ∀ dryRun useTrash, w.runCommand (.remove s dryRun useTrash) = t := by
  refine ⟨?_, fun dryRun useTrash => ?_⟩
  · rw [runCommand, runCheck, h]
  · rw [runCommand, runRemove, h]

theorem runCheck_judged (h : w.judgeSelection s = .ok j)
    (hprint : (w.runCommand (.check s)).Prints) : ∃ head items,
      Report.display j.outcomes w.screen = .ok items ∧ w.runCommand (.check s) =
        { j.transcript.exit (Tally.ofOutcomes j.outcomes).exitCode with out := head :: items } := by
  have hout : (j.transcript.exit (Tally.ofOutcomes j.outcomes).exitCode).out = [] :=
    (transcript_of_judgeSelection h).1
  rw [runCommand, runCheck, h] at hprint ⊢
  dsimp only at hprint ⊢
  generalize hline : Console.line _ _ = line at hprint ⊢
  cases line with
  | error f =>
    have hmarkup := Markup.isMarkup_of_line hline
    cases hdisplay : Report.display j.outcomes w.screen with
    | ok items | error f' =>
      rw [hdisplay] at hprint
      exact absurd rfl (hprint.not_crashed hmarkup)
  | ok head =>
    cases hdisplay : Report.display j.outcomes w.screen with
    | error f =>
      have hmarkup := Report.isMarkup_of_display hdisplay
      rw [hdisplay] at hprint
      exact absurd rfl (hprint.not_crashed hmarkup)
    | ok items =>
      refine ⟨head, items, rfl, ?_⟩
      dsimp only
      rw [← List.map_cons, Transcript.print_ok, hout, List.nil_append]

end World

def Judged.remover (j : Judged) (dryRun useTrash : Bool) : Remover :=
  ⟨j.batch.projectRoot, dryRun, useTrash⟩

namespace World

theorem runRemove_judged (h : w.judgeSelection s = .ok j) (dryRun useTrash : Bool) :
    (w.runCommand (.remove s dryRun useTrash)).world =
        ((j.remover dryRun useTrash).execute w j.outcomes).world ∧
      (w.runCommand (.remove s dryRun useTrash)).finish =
        match ((j.remover dryRun useTrash).execute w j.outcomes).crash with
        | some f => .crashed f
        | none => .exit ((j.remover dryRun useTrash).execute w j.outcomes).tally.exitCode := by
  rw [runCommand, runRemove, h]
  exact ⟨rfl, rfl⟩

theorem not_isMarkup_of_crash {dryRun : Bool} (h : w.judgeSelection s = .ok j)
    (hprint : (w.runCommand (.remove s dryRun useTrash)).Prints)
    (hcrash : ((j.remover dryRun useTrash).execute w j.outcomes).crash = some f) :
    f.isMarkup = false := by
  refine hprint f ?_
  rw [(runRemove_judged h dryRun useTrash).2, hcrash]

/-- What a look at the arguments shows, and a run that only tells what it would remove counts. -/
structure Predicts (w : World) (s : Selection) (useTrash : Bool) (j : Judged) : Prop where
  kept : (w.runCommand (.check s)).world = w ∧ (w.runCommand (.remove s true useTrash)).world = w
  counted : ((j.remover true useTrash).execute w j.outcomes).tally = .ofOutcomes j.outcomes
  finished : (w.runCommand (.check s)).finish = .exit (Tally.ofOutcomes j.outcomes).exitCode ∧
    (w.runCommand (.remove s true useTrash)).finish =
      .exit (Tally.ofOutcomes j.outcomes).exitCode
  shown : ∃ head table, (w.runCommand (.check s)).out =
      [head, table, .line (Report.totalsText (.ofOutcomes j.outcomes) ++ "\n")] ∧
    table.showing "allow" = (Tally.ofOutcomes j.outcomes).removed ∧
    table.showing "block" = (Tally.ofOutcomes j.outcomes).blocked ∧
    table.showing "error" = (Tally.ofOutcomes j.outcomes).failed ∧
    table.showing "skip" = (Tally.ofOutcomes j.outcomes).skipped

/-- A run turns out as it was predicted, but for removals that fail. -/
structure TurnsOut (w : World) (s : Selection) (useTrash : Bool) (j : Judged) : Prop where
  counted : ((j.remover false useTrash).execute w j.outcomes).tally.Foretold
    (.ofOutcomes j.outcomes)
  finished : (w.runCommand (.remove s false useTrash)).finish =
    .exit ((j.remover false useTrash).execute w j.outcomes).tally.exitCode
  refused : (w.runCommand (.remove s false useTrash)).finish.status = 2 ↔
    (w.runCommand (.check s)).finish.status = 2

theorem predicts_of_prints (h : w.judgeSelection s = .ok j)
    (hcheck : (w.runCommand (.check s)).Prints)
    (hdry : (w.runCommand (.remove s true useTrash)).Prints) : w.Predicts s useTrash j := by
  obtain ⟨head, items, hdisplay, hrun⟩ := runCheck_judged h hcheck
  obtain ⟨hworld, hfinish⟩ := runRemove_judged h true useTrash
  have hcrash : ((j.remover true useTrash).execute w j.outcomes).crash = none := by
    cases hcrash : ((j.remover true useTrash).execute w j.outcomes).crash with
    | none => rfl
    | some f =>
      obtain hmarkup | ⟨-, front, r, o, back, target, bypassed, -, hallows, hfailure⟩ :=
        Remover.execute_crash hcrash
      · rw [not_isMarkup_of_crash h hdry hcrash] at hmarkup
        exact absurd hmarkup nofun
      · have hfails : (j.remover true useTrash).Fails r o :=
          ⟨target, bypassed, hallows, by simp [hfailure]⟩
        exact absurd hfails (Remover.not_fails_of_dry rfl)
  obtain ⟨hgoing, htally⟩ := Remover.actAll_of_execute hcrash
  obtain ⟨hkept, hcounted⟩ := Remover.actAll_dry rfl hgoing
  rw [hcounted] at htally
  refine ⟨⟨?_, ?_⟩, htally, ⟨?_, ?_⟩, ?_⟩
  · rw [hrun]
    exact (transcript_of_judgeSelection h).2
  · rw [hworld, Remover.execute_world, hkept]
    rfl
  · rw [hrun]
    rfl
  · rw [hfinish, hcrash, htally]
    rfl
  · obtain ⟨table, rfl, hrows⟩ := Report.display_eq_ok hdisplay
    exact ⟨head, table, by rw [hrun], hrows⟩

theorem turnsOut_of_complete (h : w.judgeSelection s = .ok j)
    (hcheck : (w.runCommand (.check s)).finish = .exit (Tally.ofOutcomes j.outcomes).exitCode)
    (hcomplete : ((j.remover false useTrash).execute w j.outcomes).crash = none) :
    w.TurnsOut s useTrash j := by
  obtain ⟨hgoing, htally⟩ := Remover.actAll_of_execute hcomplete
  have hforetold : ((j.remover false useTrash).execute w j.outcomes).tally.Foretold
      (.ofOutcomes j.outcomes) := by
    rw [htally]
    exact Remover.actAll_foretold hgoing (.refl _)
  have hfinish : (w.runCommand (.remove s false useTrash)).finish =
      .exit ((j.remover false useTrash).execute w j.outcomes).tally.exitCode := by
    rw [(runRemove_judged h false useTrash).2, hcomplete]
  refine ⟨hforetold, hfinish, ?_⟩
  rw [hfinish, hcheck, Finish.status, Finish.status, Tally.exitCode_eq_two, Tally.exitCode_eq_two,
    hforetold.blocked]

/-- A look at the arguments, a run that only tells what it would remove and the run itself end in
the same way, or the first two predict the counts of the third, which turns out as predicted. -/
theorem runs_predicted (hnames : w.tree.NamesClean) (dryTrash useTrash : Bool)
    (hcheck : (w.runCommand (.check s)).Prints)
    (hdry : (w.runCommand (.remove s true dryTrash)).Prints)
    (hrun : (w.runCommand (.remove s false useTrash)).Prints) :
    (∃ t, w.runCommand (.check s) = t ∧ w.runCommand (.remove s true dryTrash) = t ∧
        w.runCommand (.remove s false useTrash) = t ∧ t.world = w) ∨
      ∃ j, w.judgeSelection s = .ok j ∧ w.Predicts s dryTrash j ∧ w.TurnsOut s useTrash j := by
  cases hjudge : w.judgeSelection s with
  | error t =>
    obtain ⟨hlook, hremove⟩ := run_of_unjudged hjudge
    exact .inl ⟨t, hlook, hremove true dryTrash, hremove false useTrash,
      world_of_judgeSelection hjudge⟩
  | ok j =>
    have hpredicts := predicts_of_prints hjudge hcheck hdry
    refine .inr ⟨j, rfl, hpredicts, ?_⟩
    cases hcrash : ((j.remover false useTrash).execute w j.outcomes).crash with
    | none => exact turnsOut_of_complete hjudge hpredicts.finished.1 hcrash
    | some f =>
      obtain ⟨-, hunclean⟩ := Remover.unclean_of_crash (exists_process_of_judgeSelection hjudge)
        hcrash (not_isMarkup_of_crash hjudge hrun hcrash)
      exact absurd hnames hunclean

theorem prints_of_exit {n : Nat} (h : t.finish = .exit n) : t.Prints := by
  intro f hf
  exact absurd (h.symm.trans hf) nofun

def mixedSelection : Selection :=
  ⟨⟨false, false⟩, none, ["f", "k/g"]⟩

/-- One of the two files that may be removed cannot be. -/
theorem runs_predicted_plain : ∃ j, plainWorld.judgeSelection mixedSelection = .ok j ∧
    plainWorld.Predicts mixedSelection true j ∧ plainWorld.TurnsOut mixedSelection false j := by
  have hcheck : (plainWorld.runCommand (.check mixedSelection)).finish = .exit 0 := by
    decide +kernel
  have hdry : (plainWorld.runCommand (.remove mixedSelection true true)).finish = .exit 0 := by
    decide +kernel
  obtain ⟨hrun, hgone⟩ :
      (plainWorld.runCommand (.remove mixedSelection false false)).finish = .exit 1 ∧
        (plainWorld.runCommand (.remove mixedSelection false false)).world.tree.find?
          ["p", "f"] = none := by
    decide +kernel
  obtain ⟨t, -, -, ht, hworld⟩ | ⟨j, hjudge, hpredicts, hturns⟩ :=
    runs_predicted clean_plainWorld.names true false (prints_of_exit hcheck) (prints_of_exit hdry)
      (prints_of_exit hrun)
  · rw [ht, hworld] at hgone
    exact absurd hgone (by decide +kernel)
  · exact ⟨j, hjudge, hpredicts, hturns⟩

end World
end DeletionGuard

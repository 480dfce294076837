import DeletionGuard.Proofs.Run.Answering
import DeletionGuard.Proofs.Run.Counting

/-!
Arguments and counts. In a clean world every argument has one outcome that fits together, a run
counts each of them once, and its exit status tells the worst that happened.
-/
namespace DeletionGuard
open FileTree
variable {w : World} {ev : Evaluator} {raws : List String} {outcomes : List Outcome} {s : Remover}

/-- A run acted on all arguments and counted each once. -/
structure Remover.Accounted (s : Remover) (w : World) (raws : List String)
    (outcomes : List Outcome) : Prop where
  complete : (s.execute w outcomes).crash = none
  total : (s.execute w outcomes).tally.total = raws.length
  blocked : (∃ o ∈ outcomes, o.blocked = true) → (s.execute w outcomes).tally.exitCode = 2
  failed : (∀ o ∈ outcomes, o.blocked = false) →
    (∃ front r o back, s.Reaches (.start w) outcomes front r o back ∧ s.Errs r o) →
    (s.execute w outcomes).tally.exitCode = 1
  clear : (∀ o ∈ outcomes, o.blocked = false) →
    (¬∃ front r o back, s.Reaches (.start w) outcomes front r o back ∧ s.Errs r o) →
    (s.execute w outcomes).tally.exitCode = 0

namespace Remover

theorem accounted_of_complete (h : (s.execute w outcomes).crash = none)
    (hlength : outcomes.length = raws.length) : s.Accounted w raws outcomes := by
  obtain ⟨hgoing, htally⟩ := actAll_of_execute h
  have hforetold : (s.execute w outcomes).tally.Foretold (.ofOutcomes outcomes) := by
    rw [htally]
    exact actAll_foretold hgoing (.refl _)
  obtain ⟨-, hfailed⟩ := actAll_failed rfl hgoing
  rw [← htally] at hfailed
  have hblocked : (s.execute w outcomes).tally.blocked = outcomes.countP Outcome.blocked := by
    rw [hforetold.blocked, Tally.ofOutcomes_eq]
  have hnone (hall : ∀ o ∈ outcomes, o.blocked = false) :
      (s.execute w outcomes).tally.blocked = 0 := by
    rw [hblocked, List.countP_eq_zero]
    exact fun o ho => by rw [hall o ho]; exact Bool.false_ne_true
  refine ⟨h, ?_, fun ⟨o, ho, hblock⟩ => ?_, fun hall herrs => ?_, fun hall herrs => ?_⟩
  · rw [hforetold.total, Tally.ofOutcomes, Tally.total_foldl_count, hlength]
    exact Nat.zero_add _
  · have hpos := List.countP_pos_iff.mpr ⟨o, ho, hblock⟩
    rw [Tally.exitCode_eq_two, hblocked]
    omega
  · rw [Tally.exitCode_eq_one (hnone hall)]
    exact fun hzero => hfailed.mp hzero herrs
  · rw [Tally.exitCode_eq_zero]
    exact ⟨hnone hall, hfailed.mpr herrs⟩

end Remover

/-- Arguments in a clean world each have one outcome, in order, and it fits together. What reads the
outcomes misses nothing that it takes for granted, and a run is accounted for if its lines can be
printed. -/
theorem Evaluator.process_accounted (flags : Flags) (hw : w.Clean) (hbase : ev.base.Clean)
    (hraws : ∀ raw ∈ raws, Text.holds Text.nul raw = false) :
    ∃ outcomes, ev.process w flags raws = .ok outcomes ∧
      List.Forall₂ (ev.Answered w) raws outcomes ∧
      (outcomes.map Outcome.record).map Outcome.Record.cells? =
        outcomes.map (some ∘ Report.cells) ∧
      ∀ s : Remover,
        Outcome.Record.actAll? s (.start w) (outcomes.map Outcome.record) =
          some (s.actAll (.start w) outcomes) ∧
        ((∀ f, (s.execute w outcomes).crash = some f → f.isMarkup = false) →
          s.Accounted w raws outcomes) := by
  obtain ⟨outcomes, hprocess⟩ := exists_process hw hbase hraws flags
  have hanswered := process_forall₂ hprocess
  refine ⟨outcomes, hprocess, hanswered, ?_, fun s => ⟨?_, fun hprint => ?_⟩⟩
  · rw [List.map_map]
    exact List.map_congr_left fun o _ => Outcome.cells?_record o
  · exact Outcome.actAll?_record s (.start w) outcomes
  · refine Remover.accounted_of_complete ?_ hanswered.length_eq.symm
    cases hcrash : (s.execute w outcomes).crash with
    | none => rfl
    | some f =>
      obtain ⟨-, hunclean⟩ := Remover.unclean_of_crash hprocess hcrash (hprint f hcrash)
      exact absurd hw.names hunclean

def plainWorld : World where
  tree := (FileTree.empty.put ["p", "f"] (.file ByteArray.empty .nothing)).put ["p", "k", "g"]
    (.file ByteArray.empty .nothing) |>.setDeny ["p", "k"] ⟨false, true, false⟩
  cwd := "/p"
  env := [("SAFE_RM_CONFIG", "/c")]
  users := []
  ownHome := none
  git := none
  trashError := none

theorem clean_plainWorld : plainWorld.Clean where
  names := namesClean_iff.mpr (by decide +kernel)
  links := by
    have hfiles : ∀ x ∈ plainWorld.tree.entries, x.2.isLink = false := by decide +kernel
    exact World.linksClean_iff.mpr fun x hx target hlink =>
      absurd (hfiles x hx) (by rw [hlink]; exact Bool.noConfusion)
  env := by decide
  users := nofun
  ownHome := nofun

/-- One file is removed, one cannot be, one is missing and one lies outside of the project. -/
theorem Evaluator.process_accounted_plain : ∃ outcomes,
    (free ⟨.single, ["p"]⟩).process plainWorld ⟨false, false⟩ ["f", "k/g", "gone", "/o"] =
      .ok outcomes ∧
    List.Forall₂ ((free ⟨.single, ["p"]⟩).Answered plainWorld) ["f", "k/g", "gone", "/o"] outcomes ∧
    (Remover.mk ⟨.single, ["p"]⟩ false false).Accounted plainWorld ["f", "k/g", "gone", "/o"]
      outcomes ∧
    ((Remover.mk ⟨.single, ["p"]⟩ false false).execute plainWorld outcomes).tally =
      ⟨1, 0, 1, 2⟩ := by
  have hbase : (free ⟨.single, ["p"]⟩).base.Clean := by
    unfold free Path.Clean
    decide
  have hraws : ∀ raw ∈ ["f", "k/g", "gone", "/o"], Text.holds Text.nul raw = false := by decide
  obtain ⟨outcomes, hprocess, hanswered, -, hrun⟩ :=
    process_accounted ⟨false, false⟩ clean_plainWorld hbase hraws
  have hfound : ((free ⟨.single, ["p"]⟩).process plainWorld ⟨false, false⟩
      ["f", "k/g", "gone", "/o"]).toOption.map (fun outcomes =>
        let r := (Remover.mk ⟨.single, ["p"]⟩ false false).execute plainWorld outcomes
        (r.crash, r.tally)) = some (none, ⟨1, 0, 1, 2⟩) := by
    decide +kernel
  obtain ⟨outcomes', hprocess', hpair⟩ := World.toOption_map_eq_some.mp hfound
  obtain rfl := Except.ok.inj (hprocess.symm.trans hprocess')
  obtain ⟨hcrash, htally⟩ := Prod.mk.inj hpair
  refine ⟨outcomes, hprocess, hanswered, (hrun _).2 fun f hf => ?_, htally⟩
  cases hcrash.symm.trans hf

end DeletionGuard

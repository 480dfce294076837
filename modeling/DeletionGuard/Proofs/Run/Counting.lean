import DeletionGuard.Proofs.Run.Execution
import DeletionGuard.Proofs.Run.Failing
import DeletionGuard.Proofs.Text.Runs

/-!
What a run counts. Each outcome is counted once, as predicted unless its removal fails. A run is
ended only by a line that cannot be printed or by a name that no path can hold.
-/
namespace DeletionGuard
open FileTree
variable {w : World} {s : Remover} {r : Removals} {o : Outcome} {outcomes : List Outcome}
  {t t' : Tally} {f : Failure} {ev : Evaluator} {flags : Flags} {raws : List String}

def Failure.isMarkup : Failure → Bool
  | unmatchedTag _ _ | nothingToClose _ => true
  | _ => false

namespace Markup

theorem isMarkup_of_stack {opened : List (List Char)} {inside : List Char} {position : Nat}
    (h : stack opened inside position = .error f) : f.isMarkup = true := by
  unfold stack at h
  dsimp only at h
  repeat' split at h
  all_goals first | exact Except.error.inj h ▸ rfl | exact absurd h nofun

theorem isMarkup_of_renderParts {opened : List (List Char)} {parts : List Part}
    (h : renderParts opened parts = .error f) : f.isMarkup = true := by
  fun_induction renderParts opened parts with
  | case1 => exact absurd h nofun
  | case2 _ _ ih | case3 _ _ _ _ ih | case4 _ _ _ ih => exact ih (World.map_eq_error.mp h)
  | case5 opened inside position rest f' hf =>
    rw [← Except.error.inj h]
    exact isMarkup_of_stack hf
  | case6 _ _ _ _ _ _ ih => exact ih h

theorem isMarkup_of_render {e : Emoji} {markup : String} (h : render e markup = .error f) :
    f.isMarkup = true :=
  isMarkup_of_renderParts (render_error_iff.mp h)

theorem isMarkup_of_line {screen : Screen} {markup : String}
    (h : Console.line screen markup = .error f) : f.isMarkup = true :=
  isMarkup_of_render (World.map_eq_error.mp h)

end Markup

namespace Tally

def total (t : Tally) : Nat :=
  t.removed + t.skipped + t.blocked + t.failed

theorem foldl_count (t : Tally) (outcomes : List Outcome) : outcomes.foldl count t =
    ⟨t.removed + outcomes.countP Outcome.allowed, t.skipped + outcomes.countP Outcome.skipped,
      t.blocked + outcomes.countP Outcome.blocked,
      t.failed + outcomes.countP (·.error?.isSome)⟩ := by
  induction outcomes generalizing t with
  | nil => rfl
  | cons o rest ih =>
    rw [List.foldl_cons, ih]
    obtain ⟨raw, finding⟩ := o
    match finding with
    | .unverifiable _ | .judged _ .skipped | .judged _ (.error _) | .judged _ (.verdict (.block _))
    | .judged _ (.verdict (.allow _)) =>
      simp only [List.countP_cons, mk.injEq, count, addRemoved, addSkipped, addBlocked, addFailed,
        Outcome.allowed, Outcome.blocked, Outcome.skipped, Outcome.verdict?, Outcome.error?,
        Verdict.allowed, Verdict.blocked, Option.any_some, Option.any_none, Option.isSome_some,
        Option.isSome_none, Bool.not_true, Bool.not_false, Bool.false_eq_true, if_true, if_false]
      omega

theorem ofOutcomes_eq (outcomes : List Outcome) : ofOutcomes outcomes =
    ⟨outcomes.countP Outcome.allowed, outcomes.countP Outcome.skipped,
      outcomes.countP Outcome.blocked, outcomes.countP (·.error?.isSome)⟩ := by
  simp [ofOutcomes, foldl_count, zero]

theorem total_count (t : Tally) (o : Outcome) : (t.count o).total = t.total + 1 := by
  obtain ⟨raw, finding⟩ := o
  match finding with
  | .unverifiable _ | .judged _ .skipped | .judged _ (.error _) | .judged _ (.verdict (.block _))
  | .judged _ (.verdict (.allow _)) =>
    simp only [count, total, addBlocked, addSkipped, addFailed, addRemoved]
    omega

theorem total_foldl_count (t : Tally) (outcomes : List Outcome) :
    (outcomes.foldl count t).total = t.total + outcomes.length := by
  induction outcomes generalizing t with
  | nil => rfl
  | cons o rest ih =>
    rw [List.foldl_cons, ih, total_count, List.length_cons]
    omega

/-- Counts are as they were predicted, but for removals that failed. -/
structure Foretold (t predicted : Tally) : Prop where
  skipped : t.skipped = predicted.skipped
  blocked : t.blocked = predicted.blocked
  removed : t.removed ≤ predicted.removed
  rest : t.removed + t.failed = predicted.removed + predicted.failed

theorem Foretold.refl (t : Tally) : t.Foretold t :=
  ⟨rfl, rfl, Nat.le_refl _, rfl⟩

theorem Foretold.total (h : t.Foretold t') : t.total = t'.total := by
  have := h.rest
  have := h.skipped
  have := h.blocked
  unfold Tally.total
  omega

theorem Foretold.count (h : t.Foretold t') (o : Outcome) : (t.count o).Foretold (t'.count o) := by
  obtain ⟨raw, finding⟩ := o
  obtain ⟨hskipped, hblocked, hremoved, hrest⟩ := h
  match finding with
  | .unverifiable _ | .judged _ .skipped | .judged _ (.error _) | .judged _ (.verdict (.block _))
  | .judged _ (.verdict (.allow _)) =>
    constructor <;> simp only [Tally.count, addBlocked, addSkipped, addFailed, addRemoved] <;> omega

theorem Foretold.addFailed (h : t.Foretold t') {target : Target} {bypassed : Bool}
    (ho : Remover.Allows o target bypassed) : t.addFailed.Foretold (t'.count o) := by
  obtain ⟨hskipped, hblocked, hremoved, hrest⟩ := h
  have hcount : t'.count o = t'.addRemoved := by rw [Tally.count, ho]
  rw [hcount]
  constructor <;> simp only [Tally.addFailed, addRemoved] <;> omega

theorem exitCode_eq_two : t.exitCode = 2 ↔ t.blocked ≠ 0 := by
  unfold exitCode exitStatus
  split <;> grind

theorem exitCode_eq_one (h : t.blocked = 0) : t.exitCode = 1 ↔ t.failed ≠ 0 := by
  unfold exitCode exitStatus
  split <;> grind

theorem exitCode_eq_zero : t.exitCode = 0 ↔ t.blocked = 0 ∧ t.failed = 0 := by
  unfold exitCode exitStatus
  split <;> grind

end Tally

namespace Remover

inductive Step (s : Remover) (r : Removals) (o : Outcome) : Removals → Prop where
  | skipped (hidle : o.allowed = false) : Step s r o { r with tally := r.tally.count o }
  | reported (message : String) (hidle : o.allowed = false) :
    Step s r o (r.report (complaint r.world.screen o.raw message) (Tally.count · o))
  | removed {target : Target} {bypassed : Bool} {w : World} (hallows : Allows o target bypassed)
      (hremove : s.remove r.world target = (w, none)) :
    Step s r o (Removals.print
      { r with world := w, trashed := r.trashed ++ s.handed target, tally := r.tally.count o }
      (s.notice r.world.screen o.raw bypassed))
  | failed {target : Target} {bypassed : Bool} {w : World} {f : Failure} (message : String)
      (hallows : Allows o target bypassed) (hremove : s.remove r.world target = (w, some f)) :
    Step s r o (Removals.report
      { r with world := w, trashed := r.trashed ++ s.handed target }
      (complaint r.world.screen o.raw message) Tally.addFailed)
  | broken {target : Target} {bypassed : Bool} {w : World} {f : Failure}
      (hallows : Allows o target bypassed) (hremove : s.remove r.world target = (w, some f))
      (hsystem : f.isSystem = false) :
    Step s r o (Removals.fail { r with world := w, trashed := r.trashed ++ s.handed target } f)

theorem act_step (s : Remover) (r : Removals) (o : Outcome) : s.Step r o (s.act r o) := by
  obtain ⟨raw, finding⟩ := o
  cases finding with
  | unverifiable b => exact .reported (b.explain s.projectRoot) rfl
  | judged target answer =>
    cases answer with
    | skipped => exact .skipped rfl
    | error e => exact .reported e.message rfl
    | verdict v =>
      cases v with
      | block b => exact .reported (b.explain s.projectRoot) rfl
      | allow bypassed =>
        have hallows : Allows ⟨raw, .judged target (.verdict (.allow bypassed))⟩ target bypassed :=
          rfl
        cases hremove : s.remove r.world target with
        | mk w failure =>
          cases failure with
          | none =>
            simp only [act, hremove]
            exact .removed hallows hremove
          | some f =>
            simp only [act, hremove]
            split
            · exact .failed (OperationError.message ⟨.removalFailed, Path.ofString raw, f.reason⟩)
                hallows hremove
            · rename_i hsystem
              exact .broken hallows hremove (by simpa using hsystem)

theorem report_tally {item : Except Failure Console.Item} {add : Tally → Tally}
    (hgoing : (r.report item add).crash = none) : (r.report item add).tally = add r.tally := by
  cases item with
  | ok i => rfl
  | error f => exact absurd hgoing nofun

theorem print_tally (r : Removals) (item : Except Failure Console.Item) :
    (r.print item).tally = r.tally := by
  cases item <;> rfl

theorem report_crash {item : Except Failure Console.Item} {add : Tally → Tally}
    (h : (r.report item add).crash = some f) (hgoing : r.crash = none) : item = .error f := by
  cases item with
  | ok i => cases hgoing.symm.trans h
  | error f' => exact congrArg Except.error (Option.some.inj h)

theorem print_crash {item : Except Failure Console.Item} (h : (r.print item).crash = some f)
    (hgoing : r.crash = none) : item = .error f := by
  cases item with
  | ok i => cases hgoing.symm.trans h
  | error f' => exact congrArg Except.error (Option.some.inj h)

theorem isMarkup_of_complaint {screen : Screen} {raw message : String}
    (h : complaint screen raw message = .error f) : f.isMarkup = true :=
  Markup.isMarkup_of_line h

theorem isMarkup_of_notice {screen : Screen} {raw : String} {bypassed : Bool}
    (h : s.notice screen raw bypassed = .error f) : f.isMarkup = true :=
  Markup.isMarkup_of_line h

theorem fails_iff {target : Target} {bypassed : Bool} (hallows : Allows o target bypassed) :
    s.Fails r o ↔ (s.remove r.world target).2 ≠ none := by
  constructor
  · rintro ⟨target', bypassed', hallows', hfails⟩
    obtain ⟨rfl, -⟩ := Finding.judged.inj (hallows.symm.trans hallows')
    exact hfails
  · exact fun hfails => ⟨target, bypassed, hallows, hfails⟩

theorem not_fails (ho : o.allowed = false) : ¬s.Fails r o := by
  rintro ⟨target, bypassed, hallows, -⟩
  rw [Outcome.allowed, Outcome.verdict?, hallows] at ho
  exact Bool.false_ne_true ho.symm

/-- A step that does not end the run counts the outcome as predicted, unless its removal fails. -/
theorem act_tally (hgoing : (s.act r o).crash = none) :
    s.Fails r o ∧ (s.act r o).tally = r.tally.addFailed ∨
      ¬s.Fails r o ∧ (s.act r o).tally = r.tally.count o := by
  have hstep := act_step s r o
  generalize s.act r o = r' at *
  cases hstep with
  | skipped hidle => exact .inr ⟨not_fails hidle, rfl⟩
  | reported message hidle => exact .inr ⟨not_fails hidle, report_tally hgoing⟩
  | removed hallows hremove =>
    exact .inr ⟨by simp [fails_iff hallows, hremove], print_tally _ _⟩
  | failed message hallows hremove =>
    exact .inl ⟨by simp [fails_iff hallows, hremove], report_tally hgoing⟩
  | broken hallows hremove hsystem => exact absurd hgoing nofun

theorem act_crash (hgoing : r.crash = none) (h : (s.act r o).crash = some f) :
    f.isMarkup = true ∨ f.isSystem = false ∧ ∃ target bypassed, Allows o target bypassed ∧
      (s.remove r.world target).2 = some f := by
  have hstep := act_step s r o
  generalize s.act r o = r' at *
  cases hstep with
  | skipped hidle => cases hgoing.symm.trans h
  | reported message hidle => exact .inl (isMarkup_of_complaint (report_crash h hgoing))
  | removed hallows hremove => exact .inl (isMarkup_of_notice (print_crash h hgoing))
  | failed message hallows hremove => exact .inl (isMarkup_of_complaint (report_crash h hgoing))
  | broken hallows hremove hsystem =>
    obtain rfl := Option.some.inj h
    exact .inr ⟨hsystem, _, _, hallows, by rw [hremove]⟩

theorem actAll_foretold (hgoing : (s.actAll r outcomes).crash = none) (h : r.tally.Foretold t) :
    (s.actAll r outcomes).tally.Foretold (outcomes.foldl Tally.count t) := by
  induction outcomes generalizing r t with
  | nil => exact h
  | cons o rest ih =>
    have hnow := going_of_cons hgoing
    rw [actAll_cons hnow] at hgoing ⊢
    refine ih hgoing ?_
    obtain ⟨⟨target, bypassed, hallows, -⟩, htally⟩ | ⟨-, htally⟩ := act_tally hnow
    · exact htally ▸ h.addFailed hallows
    · exact htally ▸ h.count o

/-- An outcome is a usage error, or its removal fails. -/
def Errs (s : Remover) (r : Removals) (o : Outcome) : Prop :=
  o.error?.isSome = true ∨ s.Fails r o

theorem act_failed (hgoing : (s.act r o).crash = none) :
    s.Errs r o ∧ (s.act r o).tally.failed = r.tally.failed + 1 ∨
      ¬s.Errs r o ∧ (s.act r o).tally.failed = r.tally.failed := by
  obtain ⟨hfails, htally⟩ | ⟨hfails, htally⟩ := act_tally hgoing
  · exact .inl ⟨.inr hfails, by rw [htally]; rfl⟩
  · have hcount := Tally.foldl_count r.tally [o]
    rw [List.foldl_cons, List.foldl_nil] at hcount
    rw [htally, hcount]
    cases herror : o.error?.isSome with
    | true => exact .inl ⟨.inl herror, by simp [herror]⟩
    | false => exact .inr ⟨by simp [Errs, herror, hfails], by simp [herror]⟩

theorem exists_reaches_cons {x : Outcome} {rest : List Outcome} {P : Removals → Outcome → Prop}
    (h₀ : r.crash = none) (hgoing : (s.act r x).crash = none) :
    (∃ front r' o back, s.Reaches r (x :: rest) front r' o back ∧ P r' o) ↔
      P r x ∨ ∃ front r' o back, s.Reaches (s.act r x) rest front r' o back ∧ P r' o := by
  constructor
  · rintro ⟨front, r', o, back, ⟨hsplit, hstate, hcrash⟩, hP⟩
    cases front with
    | nil =>
      obtain ⟨rfl, -⟩ := List.cons.inj hsplit
      obtain rfl : r = r' := hstate
      exact .inl hP
    | cons y front =>
      obtain ⟨rfl, hrest⟩ := List.cons.inj hsplit
      rw [actAll_cons hgoing] at hstate
      exact .inr ⟨front, r', o, back, ⟨hrest, hstate, hcrash⟩, hP⟩
  · rintro (hP | ⟨front, r', o, back, ⟨hsplit, hstate, hcrash⟩, hP⟩)
    · exact ⟨[], r, x, rest, ⟨rfl, rfl, h₀⟩, hP⟩
    · refine ⟨x :: front, r', o, back, ⟨?_, ?_, hcrash⟩, hP⟩
      · rw [hsplit, List.cons_append]
      · rw [actAll_cons hgoing, hstate]

theorem actAll_failed (h₀ : r.crash = none) (hgoing : (s.actAll r outcomes).crash = none) :
    r.tally.failed ≤ (s.actAll r outcomes).tally.failed ∧
      ((s.actAll r outcomes).tally.failed = r.tally.failed ↔
        ¬∃ front r' o back, s.Reaches r outcomes front r' o back ∧ s.Errs r' o) := by
  induction outcomes generalizing r with
  | nil =>
    refine ⟨Nat.le_refl _, iff_of_true rfl ?_⟩
    rintro ⟨front, r', o, back, ⟨hsplit, -, -⟩, -⟩
    exact absurd hsplit (by simp)
  | cons o rest ih =>
    have hnow := going_of_cons hgoing
    rw [actAll_cons hnow] at hgoing ⊢
    rw [exists_reaches_cons h₀ hnow]
    obtain ⟨hle, hiff⟩ := ih hnow hgoing
    obtain ⟨herrs, hfailed⟩ | ⟨herrs, hfailed⟩ := act_failed hnow
    · exact ⟨by omega, iff_of_false (by omega) fun h => h (.inl herrs)⟩
    · rw [hfailed] at hle hiff
      simp only [herrs, false_or]
      exact ⟨hle, hiff⟩

/-- The failure that ends a run is one of the text that is printed, or that of a removal, and then
one of the program's own. -/
theorem execute_crash (h : (s.execute w outcomes).crash = some f) :
    f.isMarkup = true ∨ f.isSystem = false ∧ ∃ front r o back target bypassed,
      s.Reaches (.start w) outcomes front r o back ∧ Allows o target bypassed ∧
        (s.remove r.world target).2 = some f := by
  by_cases hgoing : (s.actAll (.start w) outcomes).crash = none
  · unfold execute at h
    dsimp only at h
    split at h
    · exact .inl (Markup.isMarkup_of_line (report_crash h hgoing))
    · cases hgoing.symm.trans h
  · obtain ⟨front, r, o, back, hreaches, -, hlast⟩ := exists_break rfl hgoing
    rw [execute_eq_actAll hgoing, hlast] at h
    obtain hmarkup | ⟨hsystem, target, bypassed, hallows, hfailure⟩ := act_crash hreaches.going h
    · exact .inl hmarkup
    · exact .inr ⟨hsystem, front, r, o, back, target, bypassed, hreaches, hallows, hfailure⟩

theorem unclean_of_crash (hprocess : ev.process w flags raws = .ok outcomes)
    (h : (s.execute w outcomes).crash = some f) (hprint : f.isMarkup = false) :
    f = .nulInPath ∧ ¬w.tree.NamesClean := by
  obtain hmarkup | ⟨hsystem, front, r, o, back, target, bypassed, hreaches, hallows, hfailure⟩ :=
    execute_crash h
  · rw [hprint] at hmarkup
    exact absurd hmarkup nofun
  · obtain ⟨raw, -, hraw⟩ := Evaluator.exists_raw_of_process hprocess hreaches.mem
    obtain ⟨-, hresolve, -, hexists, -⟩ := Evaluator.permission_of_evaluate hraw hallows
    have hpart : r.world.tree.PartOf w.tree := by
      rw [← hreaches.state]
      exact actAll_partOf
    obtain hforeseen | hforeseen := foreseen_of_remove hpart hresolve hexists hfailure
    · rw [hsystem] at hforeseen
      exact absurd hforeseen nofun
    · exact hforeseen

theorem actAll_of_execute (h : (s.execute w outcomes).crash = none) :
    (s.actAll (.start w) outcomes).crash = none ∧
      (s.execute w outcomes).tally = (s.actAll (.start w) outcomes).tally := by
  unfold execute at h ⊢
  dsimp only at h ⊢
  split at h
  · rename_i hclosing
    rw [if_pos hclosing]
    simp only [Bool.and_eq_true, Option.isNone_iff_eq_none] at hclosing
    exact ⟨hclosing.1.1, report_tally h⟩
  · rename_i hclosing
    rw [if_neg hclosing]
    exact ⟨h, rfl⟩

theorem not_fails_of_dry (hdry : s.dryRun = true) : ¬s.Fails r o := by
  rintro ⟨target, bypassed, -, hfails⟩
  rw [remove, if_pos hdry] at hfails
  exact hfails rfl

theorem clear_of_dry (hdry : s.dryRun = true) (w : World) (o : Outcome) : s.clear w o = w := by
  unfold clear
  split
  · rw [remove, if_pos hdry]
  · rfl

theorem actAll_dry (hdry : s.dryRun = true) (hgoing : (s.actAll r outcomes).crash = none) :
    (s.actAll r outcomes).world = r.world ∧
      (s.actAll r outcomes).tally = outcomes.foldl Tally.count r.tally := by
  induction outcomes generalizing r with
  | nil => exact ⟨rfl, rfl⟩
  | cons o rest ih =>
    have hnow := going_of_cons hgoing
    rw [actAll_cons hnow] at hgoing ⊢
    obtain ⟨hworld, htally⟩ := ih hgoing
    obtain ⟨hfails, -⟩ | ⟨-, hcount⟩ := act_tally hnow
    · exact absurd hfails (not_fails_of_dry hdry)
    · rw [hworld, htally, act_world, clear_of_dry hdry, hcount]
      exact ⟨rfl, rfl⟩

end Remover
end DeletionGuard

import DeletionGuard.Proofs.Run.Execution
import DeletionGuard.Proofs.Run.Removing

/-!
A run on several paths against runs on each path alone, all from the same world. As far as the paths
were acted on, the run takes away what the single ones do together. So their order and repetition do
not matter, unless a failure ends a run before its last path.
-/
namespace DeletionGuard
open FileTree

/-- One path of a selection alone, under the same flags and the same configuration. -/
def Selection.only (sel : Selection) (raw : String) : Selection :=
  { sel with paths := [raw] }

namespace Evaluator
variable {ev : Evaluator} {w : World} {flags : Flags} {raw : String} {raws : List String}
  {outcomes front back : List Outcome} {o : Outcome}

theorem exists_outcome_of_process (h : ev.process w flags raws = .ok outcomes) (hraw : raw ∈ raws) :
    ∃ o ∈ outcomes, ev.evaluate w flags raw = .ok o := by
  induction raws generalizing outcomes with
  | nil => exact absurd hraw List.not_mem_nil
  | cons first rest ih =>
    rw [process_cons] at h
    split at h
    · exact absurd h nofun
    · rename_i o ho
      obtain ⟨others, hothers, rfl⟩ := World.map_eq_ok.mp h
      obtain rfl | hraw := List.mem_cons.mp hraw
      · exact ⟨o, List.mem_cons_self, ho⟩
      · obtain ⟨o', hmem, ho'⟩ := ih hothers hraw
        exact ⟨o', List.mem_cons_of_mem o hmem, ho'⟩

end Evaluator

namespace World
variable {w : World} {sel sel' : Selection} {raw : String} {useTrash : Bool} {j : Judged}
  {o : Outcome} {l : Location} {batch : Batch} {outcomes : List Outcome} {f : Failure}
  {config : Option Path} {flags : Flags} {paths : List String}

def NamesNoSlashedLink (w : World) (paths : List String) : Prop :=
  ∀ cwd, w.getcwd = .ok cwd → ∀ raw ∈ paths, Text.endsWith raw "/" = true →
    ∀ target, w.lstat (w.absolutePath (Path.ofString cwd) raw).text ≠ .ok (.link target)

def Starts (w : World) (config : Option Path) (batch : Batch) : Prop :=
  ∃ c text, w.loadConfig config = .ok c ∧ w.getcwd = .ok text ∧
    w.startBatch c (Path.ofString text) none none = .ok batch

theorem Starts.unique {batch' : Batch} (h : w.Starts config batch) (h' : w.Starts config batch') :
    batch = batch' := by
  obtain ⟨c, text, hconfig, htext, hbatch⟩ := h
  obtain ⟨c', text', hconfig', htext', hbatch'⟩ := h'
  obtain rfl := Except.ok.inj (hconfig.symm.trans hconfig')
  obtain rfl := Except.ok.inj (htext.symm.trans htext')
  exact Except.ok.inj (hbatch.symm.trans hbatch')

theorem starts_of_judgeSelection (h : w.judgeSelection sel = .ok j) :
    w.Starts sel.config j.batch ∧
      j.batch.evaluator.process w sel.flags sel.paths = .ok j.outcomes := by
  obtain ⟨config, text, hconfig, htext, hbatch, hprocess⟩ := judgeSelection_eq_ok h
  exact ⟨⟨config, text, hconfig, htext, hbatch⟩, hprocess⟩

theorem judgeSelection_of_process (h : w.Starts sel.config batch)
    (hprocess : batch.evaluator.process w sel.flags sel.paths = .ok outcomes) :
    ∃ t, w.judgeSelection sel = .ok ⟨batch, outcomes, t⟩ := by
  obtain ⟨config, text, hconfig, htext, hbatch⟩ := h
  simp only [judgeSelection, hconfig, htext, hbatch, hprocess]
  exact ⟨_, rfl⟩

end World
end DeletionGuard

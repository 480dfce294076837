import DeletionGuard.Evaluation
import DeletionGuard.Proofs.Run.Leaves
import DeletionGuard.Proofs.Run.Loss

/-!
What an outcome that allows a removal rests on: a rule that covers the target, or the boundary
together with the policy, which for a directory was put to every leaf below it.
-/
namespace DeletionGuard
open FileTree
variable {ev : Evaluator} {w : World} {flags : Flags} {raw : String} {o : Outcome} {t : Target}
  {b : Bool} {v : Verdict} {leaves paths : List Path} {p : Path} {e : Entry}

namespace Evaluator

/-- What permits the removal of a target, by a rule or without one. -/
inductive Permission (ev : Evaluator) (w : World) (t : Target) : Bool → Prop where
  | bypass (hcovered : covered ev.guard.rules t.resolved = true) : Permission ev w t true
  | single (hwithin : t.isWithin ev.guard.projectRoot = true) (hleaf : t.isDir = false)
      (hallow : ev.guard.applyPolicy w t = .allow false) : Permission ev w t false
  | tree (hwithin : t.isWithin ev.guard.projectRoot = true) (hdir : t.isDir = true)
      (hallow : ev.judgeTree w t = .ok (.allow false)) : Permission ev w t false

section
-- the equations that Lean derives by itself would open the judgement of a single path
attribute [local irreducible] judge evaluate

theorem judgeAll_nil (ev : Evaluator) (w : World) : ev.judgeAll w [] = .ok (.allow false) :=
  rfl

theorem judgeAll_cons (ev : Evaluator) (w : World) (leaf : Path) (rest : List Path) :
    ev.judgeAll w (leaf :: rest) =
      match ev.judge w leaf.text with
      | .error f => .error f
      | .ok v => if v.blocked then .ok v else ev.judgeAll w rest :=
  rfl

theorem process_cons (ev : Evaluator) (w : World) (flags : Flags) (raw : String)
    (rest : List String) :
    ev.process w flags (raw :: rest) =
      match ev.evaluate w flags raw with
      | .error f => .error f
      | .ok o => (ev.process w flags rest).map (o :: ·) :=
  rfl

end

theorem judgeAll_allow (h : ev.judgeAll w leaves = .ok (.allow b)) :
    b = false ∧ ∀ leaf ∈ leaves, ∃ v, ev.judge w leaf.text = .ok v ∧ v.blocked = false := by
  induction leaves with
  | nil =>
    rw [judgeAll_nil] at h
    obtain rfl : false = b := Verdict.allow.inj (Except.ok.inj h)
    exact ⟨rfl, nofun⟩
  | cons leaf rest ih =>
    rw [judgeAll_cons] at h
    split at h
    · exact absurd h nofun
    · rename_i v hv
      split at h
      · rename_i hblocked
        rw [Except.ok.inj h] at hblocked
        exact absurd hblocked nofun
      · rename_i hblocked
        obtain ⟨hb, hrest⟩ := ih h
        refine ⟨hb, fun q hq => ?_⟩
        obtain rfl | hq := List.mem_cons.mp hq
        · exact ⟨v, hv, by simpa using hblocked⟩
        · exact hrest q hq

theorem judgeTree_allow (h : ev.judgeTree w t = .ok (.allow b)) :
    b = false ∧ ∃ leaves, w.leavesBelow t.resolved = .ok leaves ∧
      ∀ leaf ∈ leaves, ∃ v, ev.judge w leaf.text = .ok v ∧ v.blocked = false := by
  unfold judgeTree at h
  split at h
  · split at h <;> exact absurd h nofun
  · rename_i leaves hleaves
    obtain ⟨hb, hall⟩ := judgeAll_allow h
    exact ⟨hb, leaves, hleaves, hall⟩

theorem exists_raw_of_process {raws : List String} {outcomes : List Outcome}
    (h : ev.process w flags raws = .ok outcomes) (ho : o ∈ outcomes) :
    ∃ raw ∈ raws, ev.evaluate w flags raw = .ok o := by
  induction raws generalizing outcomes with
  | nil =>
    obtain rfl : [] = outcomes := Except.ok.inj h
    exact absurd ho List.not_mem_nil
  | cons raw rest ih =>
    rw [process_cons] at h
    split at h
    · exact absurd h nofun
    · rename_i o' hraw
      obtain ⟨others, hothers, rfl⟩ := World.map_eq_ok.mp h
      obtain rfl | ho := List.mem_cons.mp ho
      · exact ⟨raw, List.mem_cons_self, hraw⟩
      · obtain ⟨raw', hmem, hraw'⟩ := ih hothers ho
        exact ⟨raw', List.mem_cons_of_mem raw hmem, hraw'⟩

theorem applyPolicy_allow {g : Guard} (h : g.applyPolicy w t = .allow b) : b = false := by
  unfold Guard.applyPolicy at h
  split at h
  · exact (Verdict.allow.inj h).symm
  · unfold Verdict.ofStatus at h
    split at h
    · exact absurd h nofun
    · exact (Verdict.allow.inj h).symm

theorem isWithin_of_boundary {g : Guard} (h : g.boundary t = none) :
    covered g.rules t.resolved = false ∧ t.isWithin g.projectRoot = true := by
  unfold Guard.boundary at h
  split at h
  · exact absurd h nofun
  · rename_i hcovered
    split at h
    · exact absurd h nofun
    · rename_i hwithin
      exact ⟨by simpa using hcovered, by simpa using hwithin⟩

theorem covered_of_boundary {g : Guard} (h : g.boundary t = some (.allow b)) :
    b = true ∧ covered g.rules t.resolved = true := by
  unfold Guard.boundary at h
  split at h
  · rename_i hcovered
    exact ⟨(Verdict.allow.inj (Option.some.inj h)).symm, hcovered⟩
  · split at h <;> exact absurd h nofun

theorem permission_of_answer {bypass : Option Verdict} (hbypass : ev.guard.boundary t = bypass)
    (h : ev.answer w flags t bypass = .ok (.verdict (.allow b))) :
    t.notDirectory = false ∧ t.exists? = true ∧ Permission ev w t b := by
  unfold answer at h
  split at h
  · exact absurd h nofun
  · rename_i hflag
    split at h
    · split at h <;> exact absurd h nofun
    · rename_i hexists
      refine ⟨by simpa using hflag, by simpa using hexists, ?_⟩
      split at h
      · exact absurd h nofun
      · split at h
        · rename_i v
          obtain rfl : v = .allow b := Answer.verdict.inj (Except.ok.inj h)
          obtain ⟨rfl, hcovered⟩ := covered_of_boundary hbypass
          exact .bypass hcovered
        · obtain ⟨-, hwithin⟩ := isWithin_of_boundary hbypass
          split at h
          · rename_i hdir
            obtain ⟨v, hv, hverdict⟩ := World.map_eq_ok.mp h
            obtain rfl : v = .allow b := Answer.verdict.inj hverdict
            obtain rfl := (judgeTree_allow hv).1
            exact .tree hwithin hdir hv
          · rename_i hdir
            have hv : ev.guard.applyPolicy w t = .allow b := Answer.verdict.inj (Except.ok.inj h)
            obtain rfl := applyPolicy_allow hv
            exact .single hwithin (by simpa using hdir) hv

theorem permission_of_evaluate (h : ev.evaluate w flags raw = .ok o) (ho : Remover.Allows o t b) :
    o.raw = raw ∧ w.resolve ev.base raw = .ok t ∧ t.notDirectory = false ∧ t.exists? = true ∧
      Permission ev w t b := by
  unfold evaluate at h
  cases hresolve : w.resolve ev.base raw with
  | error x =>
    rw [hresolve] at h
    cases x with
    | failure f => exact absurd h nofun
    | unverifiable u =>
      obtain rfl := Except.ok.inj h
      exact absurd ho nofun
  | ok t' =>
    simp only [hresolve] at h
    split at h
    · obtain rfl := Except.ok.inj h
      exact absurd ho (by simp [Remover.Allows])
    · obtain ⟨answer, hanswer, rfl⟩ := World.map_eq_ok.mp h
      obtain ⟨rfl, rfl⟩ := Finding.judged.inj ho
      exact ⟨rfl, rfl, permission_of_answer rfl hanswer⟩

theorem Permission.covered_or_isWithin (h : Permission ev w t b) :
    covered ev.guard.rules t.resolved = true ∨
      t.resolved.isWithin ev.guard.projectRoot = true := by
  cases h with
  | bypass hcovered => exact .inl hcovered
  | single hwithin _ _ | tree hwithin _ _ =>
    unfold Target.isWithin at hwithin
    exact .inr (Bool.and_eq_true_iff.mp hwithin).1

def free (root : Path) : Evaluator :=
  ⟨root, [], root, .open⟩

end Evaluator
end DeletionGuard

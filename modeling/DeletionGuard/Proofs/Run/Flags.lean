import DeletionGuard.Proofs.Run.Verdicts

/-!
Flags. Each flag turns one usage error into something else and changes no other outcome. What lies
or leads out of the project is refused under all flags; any other target is first answered with its
usage error or skipped, whatever rule covers it and whatever the policy says.
-/
namespace DeletionGuard
variable {ev : Evaluator} {w : World} {flags : Flags} {raw : String} {t : Target}
  {bypass : Option Verdict}

/-- No rule covers a target, and it does not lie in the project or leads out of it. -/
structure Guard.Outside (g : Guard) (t : Target) : Prop where
  uncovered : covered g.rules t.resolved = false
  beyond : t.resolved.isWithin g.projectRoot = false ∨
    ∃ q, t.linkTarget = some q ∧ q.isWithin g.projectRoot = false

theorem Target.isWithin_eq_false_iff {boundary : Path} : t.isWithin boundary = false ↔
    t.resolved.isWithin boundary = false ∨
      ∃ q, t.linkTarget = some q ∧ q.isWithin boundary = false := by
  unfold Target.isWithin
  rw [Bool.and_eq_false_iff]
  cases t.linkTarget with
  | none => simp
  | some q => simp

theorem Guard.boundary_block_iff {g : Guard} {b : Block} : g.boundary t = some (.block b) ↔
    g.Outside t ∧ b = ⟨.outsideProject, some t.absolute, none⟩ := by
  unfold Guard.boundary
  constructor
  · intro h
    split at h
    · exact absurd h nofun
    · rename_i hcovered
      split at h
      · rename_i hwithin
        refine ⟨⟨by simpa using hcovered, ?_⟩, (Verdict.block.inj (Option.some.inj h)).symm⟩
        exact Target.isWithin_eq_false_iff.mp (by simpa using hwithin)
      · exact absurd h nofun
  · rintro ⟨⟨hcovered, hbeyond⟩, rfl⟩
    rw [hcovered, Target.isWithin_eq_false_iff.mpr hbeyond]
    rfl

theorem World.raw_of_resolve {base : Path} (h : w.resolve base raw = .ok t) : t.raw = raw := by
  rw [resolve, mapError_eq_ok, bind_eq_ok] at h
  obtain ⟨⟨kind, flag⟩, -, h⟩ := h
  unfold place at h
  cases kind with
  | symlink =>
    simp only [bind_eq_ok] at h
    obtain ⟨parent, -, destination, -, h⟩ := h
    split at h
    · obtain ⟨isDir, -, rfl⟩ := map_eq_ok.mp h
      cases isDir <;> rfl
    · rw [← Except.ok.inj h]
  | missing | file | directory =>
    obtain ⟨resolved, -, rfl⟩ := map_eq_ok.mp h
    rfl

namespace Evaluator

theorem evaluate_of_outside (h : w.resolve ev.base raw = .ok t) (hout : ev.guard.Outside t) :
    ev.evaluate w flags raw =
      .ok ⟨raw, .judged t (.verdict (.block ⟨.outsideProject, some t.absolute, none⟩))⟩ := by
  unfold evaluate
  simp only [h, Guard.boundary_block_iff.mpr ⟨hout, rfl⟩]

theorem evaluate_of_not_outside (h : w.resolve ev.base raw = .ok t)
    (hout : ¬ev.guard.Outside t) : ev.evaluate w flags raw =
      (ev.answer w flags t (ev.guard.boundary t)).map fun a => ⟨raw, .judged t a⟩ := by
  unfold evaluate
  simp only [h]
  split
  · rename_i b hblock
    exact absurd (Guard.boundary_block_iff.mp hblock).1 hout
  · rfl

theorem answer_force (recursive : Bool) :
    ev.answer w ⟨recursive, true⟩ t bypass = ev.answer w ⟨recursive, false⟩ t bypass ∨
      ev.answer w ⟨recursive, false⟩ t bypass = .ok (.error (.usage .pathMissing t.raw)) ∧
        ev.answer w ⟨recursive, true⟩ t bypass = .ok .skipped := by
  unfold answer
  by_cases hflag : t.notDirectory = true
  · simp only [hflag, if_true, true_or]
  · by_cases hexists : t.exists? = true
    · simp only [hflag, hexists, Bool.not_true, Bool.false_eq_true, if_false, true_or]
    · exact .inr (by simp [hflag, hexists])

theorem answer_recursive (force : Bool) :
    ev.answer w ⟨true, force⟩ t bypass = ev.answer w ⟨false, force⟩ t bypass ∨
      ev.answer w ⟨false, force⟩ t bypass = .ok (.error (.usage .isADirectory t.raw)) := by
  unfold answer
  by_cases hflag : t.notDirectory = true
  · simp only [hflag, if_true, true_or]
  · by_cases hexists : t.exists? = true
    · by_cases hdir : t.isDir = true
      · exact .inr (by simp [hflag, hexists, hdir])
      · simp only [hflag, hexists, hdir, Bool.not_true, Bool.false_eq_true, if_false,
          Bool.false_and, true_or]
    · simp only [hflag, hexists, Bool.not_false, if_true, Bool.false_eq_true, if_false, true_or]

/-- What is answered about a target that cannot be removed as it is asked for. -/
inductive Objection (flags : Flags) (t : Target) : Answer → Prop where
  | notDirectory (hflag : t.notDirectory = true) :
      Objection flags t (.error (.usage .notADirectory t.raw))
  | missing (hflag : t.notDirectory = false) (hmissing : t.exists? = false)
      (hforce : flags.force = false) : Objection flags t (.error (.usage .pathMissing t.raw))
  | skipped (hflag : t.notDirectory = false) (hmissing : t.exists? = false)
      (hforce : flags.force = true) : Objection flags t .skipped
  | directory (hflag : t.notDirectory = false) (hdir : t.isDir = true)
      (hrecursive : flags.recursive = false) :
      Objection flags t (.error (.usage .isADirectory t.raw))

theorem exists_objection (h : t.notDirectory = true ∨ t.exists? = false ∨
    t.isDir = true ∧ flags.recursive = false) : ∃ a, Objection flags t a := by
  cases hflag : t.notDirectory with
  | true => exact ⟨_, .notDirectory hflag⟩
  | false =>
    rw [hflag] at h
    obtain hmissing | ⟨hdir, hrecursive⟩ := h.resolve_left Bool.false_ne_true
    · cases hforce : flags.force with
      | true => exact ⟨_, .skipped hflag hmissing hforce⟩
      | false => exact ⟨_, .missing hflag hmissing hforce⟩
    · exact ⟨_, .directory hflag hdir hrecursive⟩

theorem Objection.answer {a : Answer} (h : Objection flags t a) (bypass : Option Verdict) :
    ev.answer w flags t bypass = .ok a := by
  unfold Evaluator.answer
  cases h with
  | notDirectory hflag => rw [if_pos hflag]
  | missing hflag hmissing hforce | skipped hflag hmissing hforce =>
    simp [hflag, hmissing, hforce]
  | directory hflag hdir hrecursive =>
    have hexists : t.exists? = true := Target.exists_of_isDir hdir
    simp [hflag, hexists, hdir, hrecursive]

/-- An outcome is changed by each flag in one case only, and what is tested first wins. -/
structure Ordered (ev : Evaluator) (w : World) (raw : String) : Prop where
  force : ∀ recursive,
    ev.evaluate w ⟨recursive, true⟩ raw = ev.evaluate w ⟨recursive, false⟩ raw ∨
      ∃ t, ev.evaluate w ⟨recursive, false⟩ raw =
          .ok ⟨raw, .judged t (.error (.usage .pathMissing raw))⟩ ∧
        ev.evaluate w ⟨recursive, true⟩ raw = .ok ⟨raw, .judged t .skipped⟩
  recursive : ∀ force,
    ev.evaluate w ⟨true, force⟩ raw = ev.evaluate w ⟨false, force⟩ raw ∨
      ∃ t, ev.evaluate w ⟨false, force⟩ raw =
        .ok ⟨raw, .judged t (.error (.usage .isADirectory raw))⟩
  outside : ∀ t, w.resolve ev.base raw = .ok t → ev.guard.Outside t → ∀ flags,
    ev.evaluate w flags raw =
      .ok ⟨raw, .judged t (.verdict (.block ⟨.outsideProject, some t.absolute, none⟩))⟩
  objection : ∀ t, w.resolve ev.base raw = .ok t → ¬ev.guard.Outside t → ∀ flags,
    t.notDirectory = true ∨ t.exists? = false ∨ t.isDir = true ∧ flags.recursive = false →
    ∃ a, Objection flags t a ∧ ev.evaluate w flags raw = .ok ⟨raw, .judged t a⟩

/-- The flags change only what they name, and the boundary outranks them. -/
theorem evaluate_ordered (ev : Evaluator) (w : World) (raw : String) : ev.Ordered w raw := by
  have hcases (flags flags' : Flags) :
      ev.evaluate w flags raw = ev.evaluate w flags' raw ∨
        ∃ t, w.resolve ev.base raw = .ok t ∧ ¬ev.guard.Outside t := by
    cases h : w.resolve ev.base raw with
    | error x =>
      unfold evaluate
      rw [h]
      cases x <;> exact .inl rfl
    | ok t =>
      by_cases hout : ev.guard.Outside t
      · exact .inl (by rw [evaluate_of_outside h hout, evaluate_of_outside h hout])
      · exact .inr ⟨t, rfl, hout⟩
  refine ⟨fun recursive => ?_, fun force => ?_, fun t h hout flags => evaluate_of_outside h hout,
    fun t h hout flags hobjects => ?_⟩
  · obtain h | ⟨t, h, hout⟩ := hcases ⟨recursive, true⟩ ⟨recursive, false⟩
    · exact .inl h
    · rw [evaluate_of_not_outside h hout, evaluate_of_not_outside h hout]
      obtain hsame | ⟨hmissing, hskipped⟩ := answer_force recursive
      · exact .inl (by rw [hsame])
      · rw [hmissing, hskipped, World.raw_of_resolve h]
        exact .inr ⟨t, rfl, rfl⟩
  · obtain h | ⟨t, h, hout⟩ := hcases ⟨true, force⟩ ⟨false, force⟩
    · exact .inl h
    · rw [evaluate_of_not_outside h hout, evaluate_of_not_outside h hout]
      obtain hsame | hdir := answer_recursive force
      · exact .inl (by rw [hsame])
      · rw [hdir, World.raw_of_resolve h]
        exact .inr ⟨t, rfl⟩
  · obtain ⟨a, ha⟩ := exists_objection hobjects
    exact ⟨a, ha, by rw [evaluate_of_not_outside h hout, ha.answer]; rfl⟩

end Evaluator
end DeletionGuard

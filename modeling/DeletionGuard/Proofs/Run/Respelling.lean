import DeletionGuard.Proofs.Path.Recall
import DeletionGuard.Proofs.Run.Destination
import DeletionGuard.Proofs.Run.Trees

/-!
Spellings. What is decided about an argument depends on the entry that the system finds for it, and
on nothing else of its spelling: not on the way to the entry, and not on the links met on that way.
-/
namespace DeletionGuard
variable {w : World} {ev : Evaluator} {flags : Flags} {raw raw₁ raw₂ : String} {t t₁ t₂ : Target}
  {base : Path} {l : Location}

/-- What is decided about an argument, without the paths that its spelling shows in. -/
inductive Decision where
  | skipped
  | error (kind : ErrorKind)
  | allow (bypassed : Bool)
  | block (reason : Reason) (status : Option Git.Status)
  deriving DecidableEq, Repr

def Verdict.decision : Verdict → Decision
  | .allow b => .allow b
  | .block b => .block b.reason b.status

def Answer.decision : Answer → Decision
  | .verdict v => v.decision
  | .error e => .error e.kind
  | .skipped => .skipped

def Outcome.decision (o : Outcome) : Decision :=
  match o.finding with
  | .unverifiable b => .block b.reason b.status
  | .judged _ a => a.decision

/-- Targets that differ in their spelling only. -/
structure Target.Same (t₁ t₂ : Target) : Prop where
  resolved : t₁.resolved = t₂.resolved
  kind : t₁.kind = t₂.kind
  linkTarget : t₁.linkTarget = t₂.linkTarget
  notDirectory : t₁.notDirectory = t₂.notDirectory

namespace World

theorem linkTarget_of_place {p : Path} {slashed flag : Bool} {kind : Kind}
    (h : w.place raw p slashed kind flag = .ok t) (hkind : t.kind ≠ .symlink) :
    t.linkTarget = none := by
  unfold place at h
  cases kind with
  | symlink =>
    simp only [bind_eq_ok] at h
    obtain ⟨parent, -, q, hq, h⟩ := h
    split at h
    · obtain ⟨isDir, -, rfl⟩ := map_eq_ok.mp h
      cases isDir with
      | true => rfl
      | false => exact absurd rfl hkind
    · rw [← Except.ok.inj h] at hkind
      exact absurd rfl hkind
  | missing | file | directory =>
    obtain ⟨resolved, -, rfl⟩ := map_eq_ok.mp h
    rfl

theorem linkTarget_eq_none (h : w.resolve base raw = .ok t) (hkind : t.kind ≠ .symlink) :
    t.linkTarget = none := by
  rw [resolve, mapError_eq_ok, bind_eq_ok] at h
  obtain ⟨⟨kind, flag⟩, -, hplace⟩ := h
  exact linkTarget_of_place hplace hkind

theorem notDirectory_of_bare (h : w.resolve base raw = .ok t) (hexists : t.exists? = true)
    (hbare : Text.endsWith raw "/" = false) : t.notDirectory = false := by
  cases sighting_of_resolve h with
  | absent errno path hseen habsent hkind hflag =>
    rw [Target.exists?, hkind] at hexists
    exact absurd hexists (by decide)
  | entry e hseen hplain hresolved hkind hflag => rw [hflag, hbare, Bool.false_and]
  | link target hseen parent hparent hresolved hkind hflag => rw [hflag, hbare]
  | through target hseen hresolved hdir hslash hkind hflag => exact hflag

theorem parent_of_symlink (hproper : base.Proper) (habs : base.isAbsolute = true)
    (h : w.resolve base raw = .ok t) (hkind : t.kind = .symlink)
    (hfound : w.locate .keep t.absolute.text = .ok l) :
    t.absolute.parts ≠ [] ∧ l = l.dropLast ++ [t.absolute.name] ∧
      w.resolveStrict t.absolute.parent = .ok ⟨.single, l.dropLast⟩ := by
  have hp : t.absolute.Proper := by
    rw [absolute_of_resolve h]
    exact proper_absolutePath hproper
  have ha : t.absolute.isAbsolute = true := by
    rw [absolute_of_resolve h]
    exact isAbsolute_absolutePath habs
  obtain ⟨-, target, hseen⟩ := lstat_of_symlink h hkind
  obtain ⟨m, hm, hfind⟩ := entryAt_eq_ok.mp hseen
  obtain rfl : l = m := Except.ok.inj (hfound.symm.trans hm)
  obtain ⟨k, hlead, rfl, -⟩ := turn_of_locate hp ha hm hfind
  have hne : t.absolute.parts ≠ [] := by
    intro hnil
    have hwalk := walk_of_locate hp ha hm
    rw [hnil] at hwalk
    simp at hwalk
  rw [List.dropLast_concat]
  refine ⟨hne, rfl, ?_⟩
  have hparent : ∃ parent, w.resolveStrict t.absolute.parent = .ok parent := by
    rw [absolute_of_resolve h]
    cases sighting_of_resolve h with
    | absent errno path hseen habsent hkind' hflag => exact absurd (hkind.symm.trans hkind') nofun
    | entry e hseen' hplain hresolved hkind' hflag =>
      rw [absolute_of_resolve h, hseen'] at hseen
      rw [Except.ok.inj hseen] at hplain
      exact absurd hplain nofun
    | link target hseen parent hparent hresolved hkind' hflag => exact ⟨parent, hparent⟩
    | through target hseen hresolved hdir hslash hkind' hflag =>
      exact absurd (hkind.symm.trans hkind') nofun
  obtain ⟨parent, hparent⟩ := hparent
  rw [hparent, resolveStrict_leads hp.parent ha hlead hparent]

theorem linkTarget_eq (hproper : base.Proper) (habs : base.isAbsolute = true)
    (h₁ : w.resolve base raw₁ = .ok t₁) (h₂ : w.resolve base raw₂ = .ok t₂)
    (hkind₁ : t₁.kind = .symlink) (hkind₂ : t₂.kind = .symlink)
    (hfound₁ : w.locate .keep t₁.absolute.text = .ok l)
    (hfound₂ : w.locate .keep t₂.absolute.text = .ok l) : t₁.linkTarget = t₂.linkTarget := by
  have hp {raw : String} {t : Target} (h : w.resolve base raw = .ok t) :
      t.absolute.Proper ∧ t.absolute.isAbsolute = true := by
    rw [absolute_of_resolve h]
    exact ⟨proper_absolutePath hproper, isAbsolute_absolutePath habs⟩
  obtain ⟨hne₁, hl₁, hparent₁⟩ := parent_of_symlink hproper habs h₁ hkind₁ hfound₁
  obtain ⟨hne₂, hl₂, hparent₂⟩ := parent_of_symlink hproper habs h₂ hkind₂ hfound₂
  obtain ⟨q₁, hq₁, hlenient₁⟩ := destination_of_resolve h₁ hkind₁
  obtain ⟨q₂, hq₂, hlenient₂⟩ := destination_of_resolve h₂ hkind₂
  have hname : t₁.absolute.name = t₂.absolute.name :=
    (List.append_singleton_inj.mp (hl₁.symm.trans hl₂)).2
  rw [hq₁, hq₂, resolveLenient_eq (hp h₁).1 (hp h₂).1 (hp h₁).2 (hp h₂).2 hne₁ hne₂ hname hparent₁
    hparent₂ hlenient₁ hlenient₂]

theorem same_of_resolve (hproper : base.Proper) (habs : base.isAbsolute = true)
    (hbare₁ : Text.endsWith raw₁ "/" = false) (hbare₂ : Text.endsWith raw₂ "/" = false)
    (h₁ : w.resolve base raw₁ = .ok t₁) (h₂ : w.resolve base raw₂ = .ok t₂)
    (hexists₁ : t₁.exists? = true) (hexists₂ : t₂.exists? = true)
    (hfound₁ : w.locate .keep t₁.absolute.text = .ok l)
    (hfound₂ : w.locate .keep t₂.absolute.text = .ok l) : t₁.Same t₂ := by
  have hslash {raw : String} (hbare : Text.endsWith raw "/" = false) :
      Text.endsWith raw "/" = true →
        ∀ target, w.lstat (w.absolutePath base raw).text ≠ .ok (.link target) := fun hslashed =>
    absurd (hbare.symm.trans hslashed) nofun
  obtain ⟨hlocated₁, -, -⟩ := located_of_resolve hproper habs (hslash hbare₁) h₁ hexists₁
  obtain ⟨hlocated₂, -, -⟩ := located_of_resolve hproper habs (hslash hbare₂) h₂ hexists₂
  have hparts₁ : t₁.resolved.parts = l := Except.ok.inj (hlocated₁.found.symm.trans hfound₁)
  have hparts₂ : t₂.resolved.parts = l := Except.ok.inj (hlocated₂.found.symm.trans hfound₂)
  obtain ⟨e, hfind₁, hkind₁⟩ := hlocated₁.entry
  obtain ⟨e', hfind₂, hkind₂⟩ := hlocated₂.entry
  rw [hparts₁] at hfind₁
  rw [hparts₂, hfind₁] at hfind₂
  obtain rfl := Option.some.inj hfind₂
  have hkind : t₁.kind = t₂.kind := hkind₁.trans hkind₂.symm
  refine ⟨?_, hkind, ?_, ?_⟩
  · calc t₁.resolved = ⟨.single, l⟩ := by rw [← hlocated₁.root, ← hparts₁]
      _ = t₂.resolved := by rw [← hlocated₂.root, ← hparts₂]
  · by_cases hlink : t₁.kind = .symlink
    · exact linkTarget_eq hproper habs h₁ h₂ hlink (hkind ▸ hlink) hfound₁ hfound₂
    · rw [linkTarget_eq_none h₁ hlink, linkTarget_eq_none h₂ (hkind ▸ hlink)]
  · rw [notDirectory_of_bare h₁ hexists₁ hbare₁, notDirectory_of_bare h₂ hexists₂ hbare₂]

end World

namespace Target.Same

theorem isWithin (h : t₁.Same t₂) (boundary : Path) :
    t₁.isWithin boundary = t₂.isWithin boundary := by
  unfold Target.isWithin
  rw [h.resolved, h.linkTarget]

theorem boundary {g : Guard} (h : t₁.Same t₂) :
    (g.boundary t₁).map Verdict.decision = (g.boundary t₂).map Verdict.decision := by
  unfold Guard.boundary
  rw [h.resolved, h.isWithin]
  split
  · rfl
  · split <;> rfl

theorem applyPolicy {g : Guard} (h : t₁.Same t₂) :
    (g.applyPolicy w t₁).decision = (g.applyPolicy w t₂).decision := by
  unfold Guard.applyPolicy
  split
  · rfl
  · rw [h.resolved, Verdict.ofStatus, Verdict.ofStatus]
    split <;> rfl

theorem judgeTree (h : t₁.Same t₂) : ev.judgeTree w t₁ = ev.judgeTree w t₂ := by
  unfold Evaluator.judgeTree
  rw [h.resolved]

theorem answer (h : t₁.Same t₂) {bypass₁ bypass₂ : Option Verdict}
    (hbypass : bypass₁.map Verdict.decision = bypass₂.map Verdict.decision) :
    (ev.answer w flags t₁ bypass₁).map Answer.decision =
      (ev.answer w flags t₂ bypass₂).map Answer.decision := by
  unfold Evaluator.answer Target.exists? Target.isDir
  rw [h.notDirectory, h.kind, h.judgeTree]
  split
  · rfl
  · split
    · split <;> rfl
    · split
      · rfl
      · cases bypass₁ with
        | some v₁ =>
          cases bypass₂ with
          | some v₂ => exact congrArg Except.ok (Option.some.inj hbypass)
          | none => exact absurd hbypass nofun
        | none =>
          cases bypass₂ with
          | some v₂ => exact absurd hbypass nofun
          | none =>
            dsimp only
            split
            · rfl
            · exact congrArg Except.ok h.applyPolicy

theorem evaluate (h : t₁.Same t₂) (h₁ : w.resolve ev.base raw₁ = .ok t₁)
    (h₂ : w.resolve ev.base raw₂ = .ok t₂) :
    (ev.evaluate w flags raw₁).map Outcome.decision =
      (ev.evaluate w flags raw₂).map Outcome.decision := by
  have hjudged (raw : String) (t : Target) (r : Except Failure Answer) :
      (r.map fun a => Outcome.mk raw (.judged t a)).map Outcome.decision =
        r.map Answer.decision := by
    cases r <;> rfl
  have hboundary := h.boundary (g := ev.guard)
  unfold Evaluator.evaluate
  rw [h₁, h₂]
  dsimp only
  cases hbound₁ : ev.guard.boundary t₁ with
  | none =>
    rw [hbound₁] at hboundary
    rw [Option.map_eq_none_iff.mp hboundary.symm]
    dsimp only
    rw [hjudged, hjudged, h.answer rfl]
  | some v₁ =>
    rw [hbound₁] at hboundary
    cases hbound₂ : ev.guard.boundary t₂ with
    | none =>
      rw [hbound₂] at hboundary
      exact absurd hboundary nofun
    | some v₂ =>
      rw [hbound₂] at hboundary
      cases v₁ with
      | block b₁ =>
        cases v₂ with
        | block b₂ => exact congrArg Except.ok (Option.some.inj hboundary)
        | allow b => exact absurd hboundary nofun
      | allow b =>
        cases v₂ with
        | block b₂ => exact absurd hboundary nofun
        | allow b' =>
          dsimp only
          rw [hjudged, hjudged, h.answer hboundary]

end Target.Same

/-- An entry is decided about in one way, however an argument spells the way to it. -/
theorem Evaluator.evaluate_of_same_entry (flags : Flags) (hproper : ev.base.Proper)
    (habs : ev.base.isAbsolute = true) (hbare₁ : Text.endsWith raw₁ "/" = false)
    (hbare₂ : Text.endsWith raw₂ "/" = false) (h₁ : w.resolve ev.base raw₁ = .ok t₁)
    (h₂ : w.resolve ev.base raw₂ = .ok t₂) (hexists₁ : t₁.exists? = true)
    (hexists₂ : t₂.exists? = true) (hfound₁ : w.locate .keep t₁.absolute.text = .ok l)
    (hfound₂ : w.locate .keep t₂.absolute.text = .ok l) :
    t₁.resolved = t₂.resolved ∧ t₁.kind = t₂.kind ∧ t₁.linkTarget = t₂.linkTarget ∧
      (ev.evaluate w flags raw₁).map Outcome.decision =
        (ev.evaluate w flags raw₂).map Outcome.decision := by
  have hsame := World.same_of_resolve hproper habs hbare₁ hbare₂ h₁ h₂ hexists₁ hexists₂ hfound₁
    hfound₂
  exact ⟨hsame.resolved, hsame.kind, hsame.linkTarget, hsame.evaluate h₁ h₂⟩

/-- A dangling link is named by its way, and by one over another link. -/
theorem Evaluator.evaluate_of_same_entry_beside : ∃ t₁ t₂,
    World.besideWorld.resolve (Path.ofString "/p") "d//./l" = .ok t₁ ∧
    World.besideWorld.resolve (Path.ofString "/p") "k/../l" = .ok t₂ ∧
    t₁.absolute ≠ t₂.absolute ∧ t₁.kind = .symlink ∧ t₁.linkTarget = t₂.linkTarget ∧
    ((free (Path.ofString "/p")).evaluate World.besideWorld ⟨false, false⟩ "d//./l").map
        Outcome.decision =
      ((free (Path.ofString "/p")).evaluate World.besideWorld ⟨false, false⟩ "k/../l").map
        Outcome.decision := by
  have hseen₁ : (World.besideWorld.resolve (Path.ofString "/p") "d//./l").toOption.map
      (fun t => (t.absolute, t.kind)) = some (Path.ofString "/p/d/l", .symlink) := by
    decide +kernel
  have hseen₂ : (World.besideWorld.resolve (Path.ofString "/p") "k/../l").toOption.map
      (fun t => (t.absolute, t.kind)) = some (Path.ofString "/p/k/../l", .symlink) := by
    decide +kernel
  obtain ⟨t₁, h₁, hpair₁⟩ := World.toOption_map_eq_some.mp hseen₁
  obtain ⟨t₂, h₂, hpair₂⟩ := World.toOption_map_eq_some.mp hseen₂
  obtain ⟨habsolute₁, hkind₁⟩ := Prod.mk.inj hpair₁
  obtain ⟨habsolute₂, hkind₂⟩ := Prod.mk.inj hpair₂
  have hfound₁ : World.besideWorld.locate .keep t₁.absolute.text = .ok ["p", "d", "l"] := by
    rw [habsolute₁]
    exact World.toOption_eq_some.mp (by decide +kernel)
  have hfound₂ : World.besideWorld.locate .keep t₂.absolute.text = .ok ["p", "d", "l"] := by
    rw [habsolute₂]
    exact World.toOption_eq_some.mp (by decide +kernel)
  have hproper : (free (Path.ofString "/p")).base.Proper := Path.proper_ofString "/p"
  have hexists {t : Target} (hkind : t.kind = .symlink) : t.exists? = true := by
    rw [Target.exists?, hkind]
    rfl
  obtain ⟨-, -, htarget, hsame⟩ := evaluate_of_same_entry ⟨false, false⟩ hproper (by decide)
    (by decide) (by decide) h₁ h₂ (hexists hkind₁) (hexists hkind₂) hfound₁ hfound₂
  exact ⟨t₁, t₂, h₁, h₂, by rw [habsolute₁, habsolute₂]; decide, hkind₁, htarget, hsame⟩

end DeletionGuard

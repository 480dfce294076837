import DeletionGuard.Proofs.Path.Parts
import DeletionGuard.Proofs.Target.Canonical

/-!
Arguments in a clean world. Where no name, link, variable or home directory holds the character that
no path can hold, every argument without it has a target or cannot be verified; nothing else comes
of it.
-/
namespace DeletionGuard
variable {w : World} {base p q : Path} {raw text : String} {t : Target}

/-- The character that no path can hold occurs nowhere. -/
structure World.Clean (w : World) : Prop where
  names : w.tree.NamesClean
  links : w.LinksClean
  env : ∀ x ∈ w.env, Text.holds Text.nul x.2 = false
  users : ∀ x ∈ w.users, Text.holds Text.nul x.2 = false
  ownHome : ∀ home, w.ownHome = some home → Text.holds Text.nul home = false

theorem FileTree.namesClean_iff {t : FileTree} :
    t.NamesClean ↔ ∀ x ∈ t.entries, ∀ s ∈ x.1, Text.holds Text.nul s = false := by
  constructor
  · intro h x hx s hs
    have hne : x.1 ≠ [] := (t.sound.named x hx).1
    exact h x.1 x.2 ((FileTree.find?_eq_some_iff hne).mpr hx) s hs
  · intro h l e hfind s hs
    have hne : l ≠ [] := List.ne_nil_of_mem hs
    exact h (l, e) (FileTree.mem_of_find? hne hfind) s hs

namespace World

theorem linksClean_iff : w.LinksClean ↔
    ∀ x ∈ w.tree.entries, ∀ target, x.2 = .link target → Text.holds Text.nul target = false := by
  constructor
  · intro h x hx target hlink
    have hne : x.1 ≠ [] := (w.tree.sound.named x hx).1
    exact h x.1 target (hlink ▸ (FileTree.find?_eq_some_iff hne).mpr hx)
  · intro h l target hfind
    have hne : l ≠ [] := by
      rintro rfl
      rw [FileTree.find?_nil] at hfind
      exact absurd hfind nofun
    exact h (l, .link target) (FileTree.mem_of_find? hne hfind) target rfl

theorem Clean.homeOf (h : w.Clean) {user home : String} (hhome : w.homeOf user = some home) :
    Text.holds Text.nul home = false := by
  unfold World.homeOf at hhome
  split at hhome
  · split at hhome
    · rename_i home' hlookup
      rw [← Option.some.inj hhome]
      obtain ⟨front, back, henv, -⟩ := List.lookup_eq_some_iff.mp hlookup
      exact h.env ("HOME", home') (by simp [henv])
    · exact h.ownHome home hhome
  · obtain ⟨front, back, husers, -⟩ := List.lookup_eq_some_iff.mp hhome
    exact h.users (user, home) (by simp [husers])

theorem Clean.expandUser (h : w.Clean) (htext : Text.holds Text.nul text = false) :
    Text.holds Text.nul (w.expandUser text) = false := by
  unfold World.expandUser
  split
  · rename_i cs hcs
    split
    · exact htext
    · rename_i home hhome
      dsimp only
      split
      · decide
      · have hhome := h.homeOf hhome
        simp only [Text.holds, List.contains_eq_mem, decide_eq_false_iff_not] at htext hhome ⊢
        simp only [String.toList_append, List.mem_append, not_or, Text.stripEnd,
          String.toList_ofList, List.mem_reverse]
        refine ⟨fun hmem => hhome ?_, fun hmem => htext ?_⟩
        · exact List.mem_reverse.mp ((List.dropWhile_sublist _).subset hmem)
        · rw [hcs]
          exact List.mem_cons_of_mem _ ((List.dropWhile_sublist _).subset hmem)
  · exact htext

theorem Clean.absolutePath (h : w.Clean) (hbase : base.Clean)
    (hraw : Text.holds Text.nul raw = false) : (w.absolutePath base raw).Clean :=
  Path.Of.join hbase (spells_clean (h.expandUser hraw)).ofString

theorem Clean.observe (hp : p.Clean) : w.observe p ≠ .error .nulInPath := by
  have hseen : w.lstat p.text ≠ .error .nulInPath := entryAt_ne_nul hp
  unfold World.observe
  split <;> grind

theorem isDir_ne_nul : w.isDir text ≠ .error .nulInPath := by
  unfold isDir test
  split
  · exact nofun
  · rename_i f _
    split
    · exact nofun
    · rename_i habsent
      intro h
      rw [Except.error.inj h] at habsent
      exact habsent rfl

theorem Clean.place (h : w.Clean) (hp : p.Clean) {slashed flag : Bool} {kind : Kind} :
    w.place raw p slashed kind flag ≠ .error .nulInPath := by
  have hstrict := resolveStrict_ne_nul h.links hp
  have hlenient := resolveLenient_ne_nul h.names h.links hp
  unfold World.place
  cases kind with
  | symlink =>
    refine bind_ne_error (resolveStrict_ne_nul h.links (Path.Of.parent hp)) fun parent _ => ?_
    refine bind_ne_error hlenient fun destination _ => ?_
    dsimp only
    split
    · exact fun h => isDir_ne_nul (map_eq_error.mp h)
    · exact nofun
  | missing => exact fun h => hlenient (map_eq_error.mp h)
  | file | directory => exact fun h => hstrict (map_eq_error.mp h)

theorem Clean.resolve (h : w.Clean) (hbase : base.Clean)
    (hraw : Text.holds Text.nul raw = false) (f : Failure) :
    w.resolve base raw ≠ .error (.failure f) := by
  have hp := h.absolutePath hbase hraw
  unfold World.resolve
  intro hfailure
  obtain ⟨f', hf', hobstacle⟩ := mapError_eq_error.mp hfailure
  obtain ⟨rfl, -⟩ := obstacle_eq_failure.mp hobstacle
  exact bind_ne_error (Clean.observe hp) (fun _ _ => h.place hp) hf'

theorem clean_of_entryAt {ending : Ending} {e : Entry} (h : w.entryAt ending p.text = .ok e) :
    p.Clean := by
  intro s hs
  rw [← Bool.not_eq_true]
  intro hholds
  rw [entryAt_eq_nul_iff.mpr (Path.holds_nul_text.mpr ⟨s, hs, hholds⟩)] at h
  exact absurd h nofun

theorem clean_of_resolveStrict (hnames : w.tree.NamesClean) (h : w.resolveStrict p = .ok q) :
    q.Clean := by
  have hreal : w.realPath true p = .ok q := mapError_eq_ok.mp h
  unfold realPath at hreal
  cases hr : w.resolveText true w.maxDepth ⟨.relative, []⟩ p.text [] with
  | error f =>
    rw [hr] at hreal
    exact absurd hreal nofun
  | ok r =>
    obtain ⟨q', memo, rfl⟩ := resolveText_strict hr
    rw [hr] at hreal
    have hclean : Path.Clean ⟨.relative, []⟩ := nofun
    have hq' := (resolveText_closed (closed_clean w) (.inl hclean) (.nil _) hr).1
    exact of_anchor (by decide) (fun _ => clean_cwd hnames) hq' hreal

theorem clean_of_resolve (hnames : w.tree.NamesClean) (h : w.resolve base raw = .ok t)
    (hexists : t.exists? = true) : t.resolved.Clean := by
  cases sighting_of_resolve h with
  | absent errno path hseen habsent hkind hflag =>
    rw [Target.exists?, hkind] at hexists
    exact absurd hexists (by decide)
  | entry e hseen hplain hresolved hkind hflag => exact clean_of_resolveStrict hnames hresolved
  | link target hseen parent hparent hresolved hkind hflag =>
    rw [hresolved]
    refine Path.Of.child (clean_of_resolveStrict hnames hparent) ?_
    by_cases hnil : (w.absolutePath base raw).parts = []
    · rw [Path.name, hnil]
      decide
    · rw [Path.name_eq_getLast hnil]
      exact clean_of_entryAt hseen _ (List.getLast_mem hnil)
  | through target hseen hresolved hdir hslash hkind hflag =>
    obtain ⟨e, hstat, -⟩ := stat_of_isDir hdir
    exact clean_of_entryAt hstat

theorem proper_of_isDir (h : w.resolve base raw = .ok t) (hdir : t.isDir = true) :
    t.resolved.Proper ∧ t.resolved.isAbsolute = true := by
  have hdirectory : t.kind = .directory := by simpa [Target.isDir] using hdir
  cases sighting_of_resolve h with
  | absent errno path hseen habsent hkind hflag => cases hdirectory.symm.trans hkind
  | entry e hseen hplain hresolved hkind hflag =>
    exact proper_of_realPath (mapError_eq_ok.mp hresolved)
  | link target hseen parent hparent hresolved hkind hflag => cases hdirectory.symm.trans hkind
  | through target hseen hresolved hdir hslash hkind hflag =>
    exact proper_of_realPath (realPath_of_resolveLenient hresolved)

end World
end DeletionGuard

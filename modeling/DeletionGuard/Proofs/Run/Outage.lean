import DeletionGuard.Proofs.FileTree.Ending
import DeletionGuard.Proofs.Git.TopLevel
import DeletionGuard.Proofs.Run.Respelling
import DeletionGuard.Proofs.Run.Uncommitted

/-!
A repository that does not tell its status. Git is asked for the root twice, in the current
directory for the boundary and in the boundary for the status. Where it names a root again,
everything in the project counts as modified. Where it does not, the project counts as no
repository, and what lies in it may go.
-/
namespace DeletionGuard
open FileTree
variable {w : World} {ev : Evaluator} {flags : Flags} {raw : String} {o : Outcome} {t : Target}
  {l : Location} {cwd root top p q : Path} {config : Config} {b : Batch} {oracle : Git.Oracle}

namespace World

def Enters (w : World) (p : Path) : Prop :=
  ∃ l, w.locate .follow p.text = .ok l ∧ w.tree.isDir l = true

/-- One of the questions for the status of a repository is not answered at its root. -/
def Silent (w : World) (top : Path) : Prop :=
  ∃ q : Git.Query, q ≠ .topLevel ∧ ∀ out, w.askGit top q ≠ .ok (.answered out)

/-- Git names a root, but does not tell the status of the repository that is found there. -/
structure Outage (w : World) (cwd : Path) : Prop where
  named : ∃ out, w.askGit cwd .topLevel = .ok (.answered out) ∧ Text.strip out ≠ ""
  silent : ∀ root top, w.projectRoot cwd = .ok root → w.repositoryRoot root = .ok (some top) →
    w.Silent top

theorem enters_of_answered {out : String} {q : Git.Query}
    (h : w.askGit p q = .ok (.answered out)) : w.Enters p := by
  unfold askGit at h
  cases hl : w.locate .follow p.text with
  | ok l =>
    rw [hl] at h
    dsimp only at h
    split at h
    · exact absurd h nofun
    · rename_i hdir
      exact ⟨l, hl, by simpa using hdir⟩
  | error f =>
    rw [hl] at h
    cases f <;> exact absurd h nofun

theorem answered_of_repositoryStatus {told : Git.Changes × List String}
    (h : w.repositoryStatus top = .ok (some told)) : ¬w.Silent top := by
  rintro ⟨q, hq, hsilent⟩
  unfold repositoryStatus at h
  split at h
  · exact absurd h nofun
  · rename_i hstatus
    split at h
    · exact absurd h nofun
    · rename_i hfiles
      cases q with
      | topLevel => exact hq rfl
      | status => exact hsilent _ hstatus
      | files => exact hsilent _ hfiles
    · exact absurd h (by simp)
  · exact absurd h (by simp)

theorem silent_of_status
    (h : ∀ l answers, w.gitAt l = some answers → answers.status.code ≠ 0) : w.Silent top := by
  refine ⟨.status, nofun, fun out hout => ?_⟩
  unfold askGit at hout
  split at hout
  · exact absurd hout nofun
  · exact absurd hout nofun
  · rename_i l hl
    split at hout
    · exact absurd hout nofun
    · split at hout
      · exact absurd hout nofun
      · rename_i answers hanswers
        rw [Git.Answers.reply, if_neg (h l answers hanswers)] at hout
        exact absurd hout nofun

theorem prepareOracle_of_silent
    (hsilent : ∀ top, w.repositoryRoot root = .ok (some top) → w.Silent top)
    (h : w.prepareOracle root = .ok oracle) :
    (∃ top, w.repositoryRoot root = .ok (some top) ∧ oracle = .failure top) ∨
      w.repositoryRoot root = .ok none ∧ oracle = .notInRepo := by
  unfold prepareOracle at h
  split at h
  · exact absurd h nofun
  · rename_i hnone
    exact .inr ⟨hnone, (Except.ok.inj h).symm⟩
  · rename_i top hroot
    split at h
    · exact absurd h nofun
    · exact .inl ⟨top, hroot, (Except.ok.inj h).symm⟩
    · rename_i htold
      exact absurd (hsilent top hroot) (answered_of_repositoryStatus htold)

theorem startBatch_of_outage (h : w.Outage cwd)
    (hstrict : config.settings.allowProjectDeletion = false)
    (hbatch : w.startBatch config cwd none none = .ok b) : b.evaluator.base = cwd ∧
      ((∃ top, w.repositoryRoot b.projectRoot = .ok (some top) ∧
          b.evaluator.guard.policy = .restricted (.failure top)) ∨
        w.repositoryRoot b.projectRoot = .ok none ∧
          b.evaluator.guard.policy = .restricted .notInRepo) := by
  have hfound := batchRoot_of_startBatch hbatch
  obtain ⟨root, policy, horacle, hpolicy, hevaluator⟩ := startBatch_eq_ok hbatch
  have hroot : b.projectRoot = root := by rw [Batch.projectRoot, hevaluator]
  rw [hroot] at hfound ⊢
  rw [hevaluator]
  unfold batchOracle at horacle
  rw [hstrict, if_neg Bool.false_ne_true] at horacle
  obtain ⟨oracle, hprepare, hsome⟩ := map_eq_ok.mp horacle
  rw [hstrict, ← hsome] at hpolicy
  obtain rfl : Policy.restricted oracle = policy := Except.ok.inj hpolicy
  refine ⟨rfl, ?_⟩
  obtain ⟨top, hagain, rfl⟩ | ⟨hnone, rfl⟩ :=
    prepareOracle_of_silent (fun top => h.silent root top hfound) hprepare
  · exact .inl ⟨top, hagain, rfl⟩
  · exact .inr ⟨hnone, rfl⟩

theorem enters_of_open (hdir : w.tree.isDir l = true) (hopen : w.tree.Open l) (hfits : Fits l) :
    w.Enters ⟨.single, l⟩ := by
  obtain ⟨deny, hfind⟩ := isDir_iff.mp hdir
  refine ⟨l, ?_, hdir⟩
  rw [locate_of_fits (proper_of_find? hfind) hfits]
  by_cases hnil : l = []
  · simp [hnil]
  · have hkeep : w.tree.walk .keep maxLinks [] l false = .ok l := walk_of_open hopen hfind
    have hplain : ∀ target, w.tree.find? l ≠ some (.link target) := by
      intro target hlink
      rw [hfind] at hlink
      exact absurd hlink nofun
    rw [List.isEmpty_eq_false_iff.mpr hnil, walk_follow_of_keep hplain hkeep]
    rfl

theorem fits_above {base : Path} (hproper : base.Proper) (habs : base.isAbsolute = true)
    (hbare : w.Bare base raw) (h : w.resolve base raw = .ok t) (hexists : t.exists? = true) :
    Fits t.resolved.parts.dropLast := by
  obtain ⟨hlocated, -, hfits⟩ := located_of_resolve hproper habs hbare h hexists
  by_cases hkind : t.kind = .symlink
  · obtain ⟨-, -, hparent⟩ := parent_of_symlink hproper habs h hkind hlocated.found
    have ha : t.absolute.parent.isAbsolute = true := by
      rw [Path.isAbsolute_parent, absolute_of_resolve h]
      exact isAbsolute_absolutePath habs
    have hfits := fits_of_resolveStrict ha hparent
    exact hfits
  · exact (hfits (.inl hkind)).above (List.dropLast_prefix _)

theorem eq_root_of_isWithin {base : Path} (hproper : base.Proper) (habs : base.isAbsolute = true)
    (hbare : w.Bare base raw) (h : w.resolve base raw = .ok t) (hexists : t.exists? = true)
    (hwithin : t.resolved.isWithin root = true) (hroot : ¬w.Enters root) :
    t.resolved = root ∧ t.isDir = false := by
  obtain ⟨hlocated, hopen, hfits⟩ := located_of_resolve hproper habs hbare h hexists
  obtain ⟨hsame, hbelow⟩ := (Path.isWithin_iff _ _).mp hwithin
  have hpath : root = ⟨.single, root.parts⟩ := by rw [← hlocated.root, hsame]
  by_cases heq : root.parts = t.resolved.parts
  · have hresolved : t.resolved = root := by rw [hpath, heq, ← hlocated.root]
    refine ⟨hresolved, ?_⟩
    rw [← Bool.not_eq_true]
    intro hdir
    obtain ⟨e, hfind, hkind⟩ := hlocated.entry
    have hplain : t.kind ≠ .symlink := by
      intro hlink
      rw [Target.isDir, hlink] at hdir
      exact absurd hdir (by decide)
    have htree : w.tree.isDir t.resolved.parts = true := by
      have hplaced : t.Placed w.tree := ⟨hlocated.root, e, hfind, hkind⟩
      rw [hplaced.isDir_eq, hdir]
    have henters := enters_of_open htree hopen (hfits (.inl hplain))
    rw [← heq, ← hpath] at henters
    exact hroot henters
  · have hdir := hlocated.above root.parts hbelow heq
    have hne : t.resolved.parts ≠ [] := fun hnil => heq (by simpa [hnil] using hbelow)
    have habove : root.parts <+: t.resolved.parts.dropLast := by
      rw [← List.dropLast_concat_getLast hne, List.prefix_concat_iff,
        List.dropLast_concat_getLast hne] at hbelow
      exact hbelow.resolve_left heq
    have hfit := (fits_above hproper habs hbare h hexists).above habove
    have henters := enters_of_open hdir (hopen.above hbelow) hfit
    rw [← hpath] at henters
    exact absurd henters hroot

end World

namespace Evaluator

/-- Nothing is allowed without a bypass but directories, and those only if rules cover everything in
them that is no directory. -/
structure FailsClosed (ev : Evaluator) (w : World) (flags : Flags) (raw : String) : Prop where
  leaf : ∀ o t, ev.evaluate w flags raw = .ok o → Remover.Allows o t false → t.isDir = true
  tree : ∀ o t, ev.evaluate w flags raw = .ok o → Remover.Allows o t false →
    ∀ l e, t.resolved.parts <+: l → w.tree.find? l = some e → e.isDir = false →
      covered ev.guard.rules ⟨.single, l⟩ = true

/-- An argument names what may go though no status is known: something in the project that no rule
covers, and either no directory or one with something in it that no rule covers. -/
structure Releases (ev : Evaluator) (w : World) (flags : Flags) (raw : String) (t : Target) :
    Prop where
  resolved : w.resolve ev.base raw = .ok t
  present : t.exists? = true
  plain : t.notDirectory = false
  uncovered : covered ev.guard.rules t.resolved = false
  within : t.isWithin ev.guard.projectRoot = true
  loses : t.isDir = false ∨ flags.recursive = true ∧ Listed w t.resolved.parts ∧
    ev.AllowedAlone w t.resolved.parts ∧ ∃ l e, t.resolved.parts <+: l ∧
      w.tree.find? l = some e ∧ e.isDir = false ∧ covered ev.guard.rules ⟨.single, l⟩ = false

theorem uncovered_of_evaluate (h : ev.evaluate w flags raw = .ok o)
    (ho : Remover.Allows o t false) : covered ev.guard.rules t.resolved = false := by
  obtain ⟨-, hresolve, hplain, hexists, -⟩ := permission_of_evaluate h ho
  cases hcovered : covered ev.guard.rules t.resolved with
  | false => rfl
  | true =>
    have hboundary : ev.guard.boundary t = some (.allow true) := by
      rw [Guard.boundary, if_pos hcovered]
    unfold evaluate at h
    simp only [hresolve, hboundary] at h
    obtain ⟨a, ha, rfl⟩ := World.map_eq_ok.mp h
    obtain ⟨-, rfl⟩ := Finding.judged.inj ho
    unfold answer at ha
    simp only [hplain, hexists, Bool.not_true, Bool.false_eq_true, if_false] at ha
    split at ha
    · exact absurd ha (by simp)
    · exact absurd ha (by simp)

theorem isWithin_of_evaluate (h : ev.evaluate w flags raw = .ok o) (ho : Remover.Allows o t false) :
    t.isWithin ev.guard.projectRoot = true := by
  obtain ⟨-, -, -, -, hpermission⟩ := permission_of_evaluate h ho
  cases hpermission with
  | single hwithin _ _ | tree hwithin _ _ => exact hwithin

theorem recursive_of_evaluate (h : ev.evaluate w flags raw = .ok o) (ho : Remover.Allows o t false)
    (hdir : t.isDir = true) : flags.recursive = true := by
  obtain ⟨-, hresolve, hplain, hexists, -⟩ := permission_of_evaluate h ho
  cases hrecursive : flags.recursive with
  | true => rfl
  | false =>
    unfold evaluate at h
    simp only [hresolve] at h
    split at h
    · rw [← Except.ok.inj h] at ho
      exact absurd ho (by simp [Remover.Allows])
    · obtain ⟨a, ha, rfl⟩ := World.map_eq_ok.mp h
      unfold answer at ha
      simp only [hplain, hexists, hdir, hrecursive] at ha
      obtain rfl := Except.ok.inj ha
      exact absurd ho (by simp [Remover.Allows])

theorem Releases.boundary (h : ev.Releases w flags raw t) : ev.guard.boundary t = none := by
  rw [Guard.boundary, h.uncovered, h.within]
  rfl

theorem evaluate_of_releases (hproper : ev.base.Proper) (habs : ev.base.isAbsolute = true)
    (hpolicy : ev.guard.policy = .restricted .notInRepo) (hbare : w.Bare ev.base raw)
    (h : ev.Releases w flags raw t) :
    ev.evaluate w flags raw = .ok ⟨raw, .judged t (.verdict (.allow false))⟩ := by
  cases hdir : t.isDir with
  | false =>
    have hallow : ev.guard.applyPolicy w t = .allow false := by
      rw [Guard.applyPolicy, hpolicy]
      rfl
    unfold evaluate
    simp only [h.resolved, h.boundary, answer, h.plain, h.present, hdir, hallow]
    rfl
  | true =>
    obtain hfile | ⟨hrecursive, hlisted, halone, -⟩ := h.loses
    · cases hdir.symm.trans hfile
    · have hnames : ev.NamesTree w raw t := ⟨h.resolved, hdir, hbare, h.within, h.uncovered⟩
      have hfolder := folder_of_namesTree hproper habs hnames
      rw [evaluate_tree hnames hrecursive, (judgeTree_allow_iff hfolder).mpr ⟨hlisted, halone⟩]
      rfl

theorem releases_of_evaluate (hproper : ev.base.Proper) (habs : ev.base.isAbsolute = true)
    (hbare : w.Bare ev.base raw) (h : ev.evaluate w flags raw = .ok o)
    (ho : Remover.Allows o t false)
    (hloses : t.isDir = false ∨ ∃ l e, t.resolved.parts <+: l ∧ w.tree.find? l = some e ∧
      e.isDir = false ∧ covered ev.guard.rules ⟨.single, l⟩ = false) :
    ev.Releases w flags raw t := by
  obtain ⟨-, hresolve, hplain, hexists, hpermission⟩ := permission_of_evaluate h ho
  have hwithin := isWithin_of_evaluate h ho
  have huncovered := uncovered_of_evaluate h ho
  refine ⟨hresolve, hexists, hplain, huncovered, hwithin, ?_⟩
  cases hpermission with
  | single _ hfile _ => exact .inl hfile
  | tree _ hdir hallow =>
    have hnames : ev.NamesTree w raw t := ⟨hresolve, hdir, hbare, hwithin, huncovered⟩
    obtain ⟨hlisted, halone⟩ :=
      (judgeTree_allow_iff (folder_of_namesTree hproper habs hnames)).mp hallow
    exact hloses.imp_right fun hfile => ⟨recursive_of_evaluate h ho hdir, hlisted, halone, hfile⟩

theorem Releases.eq_root (hproper : ev.base.Proper) (habs : ev.base.isAbsolute = true)
    (hroot : ¬w.Enters ev.guard.projectRoot) (hbare : w.Bare ev.base raw)
    (h : ev.Releases w flags raw t) : t.resolved = ev.guard.projectRoot ∧ t.isDir = false := by
  have hwithin := h.within
  unfold Target.isWithin at hwithin
  have hresolved := (Bool.and_eq_true_iff.mp hwithin).1
  exact World.eq_root_of_isWithin hproper habs hbare h.resolved h.present hresolved hroot

/-- What is lost without a bypass or a rule lies in the project root, and if git cannot be run in
the root, it is the root that was lost. -/
theorem root_of_lost (hproper : ev.base.Proper) (habs : ev.base.isAbsolute = true)
    (hbare : w.Bare ev.base raw) (h : ev.evaluate w flags raw = .ok o)
    (ho : Remover.Allows o t false) (hplaced : t.Placed w.tree) (hbelow : t.resolved.parts <+: l)
    {e : Entry} (hfind : w.tree.find? l = some e) (hfile : e.isDir = false)
    (huncovered : covered ev.guard.rules ⟨.single, l⟩ = false) :
    (Path.mk .single l).isWithin ev.guard.projectRoot = true ∧
      (¬w.Enters ev.guard.projectRoot → ev.guard.projectRoot = ⟨.single, l⟩) := by
  have hreleases := releases_of_evaluate hproper habs hbare h ho
    (.inr ⟨l, e, hbelow, hfind, hfile, huncovered⟩)
  refine ⟨?_, fun henters => ?_⟩
  · have hwithin := hreleases.within
    unfold Target.isWithin at hwithin
    obtain ⟨hroot, habove⟩ := (Path.isWithin_iff _ _).mp (Bool.and_eq_true_iff.mp hwithin).1
    exact (Path.isWithin_iff _ _).mpr ⟨hplaced.1.symm.trans hroot, habove.trans hbelow⟩
  · obtain ⟨hroot, hleaf⟩ := hreleases.eq_root hproper habs henters hbare
    -- nothing lies below what is no directory, so it is the root that was lost
    have hdir : w.tree.isDir t.resolved.parts = false := hplaced.isDir_eq.trans hleaf
    rw [← eq_of_below hbelow hfind hdir, ← hplaced.1]
    exact hroot.symm

theorem failsClosed_of_failure (hproper : ev.base.Proper) (habs : ev.base.isAbsolute = true)
    (hpolicy : ev.guard.policy = .restricted (.failure root)) (hbare : w.Bare ev.base raw) :
    ev.FailsClosed w flags raw where
  leaf o t h ho := by
    obtain ⟨-, -, -, -, hpermission⟩ := permission_of_evaluate h ho
    cases hpermission with
    | single _ _ hallow => exact absurd (Guard.clean_of_applyPolicy hpolicy hallow) nofun
    | tree _ hdir _ => exact hdir
  tree o t h ho l e hbelow hfind hfile := by
    obtain ⟨-, hresolve, -, hexists, hpermission⟩ := permission_of_evaluate h ho
    have hplaced := World.placed_of_resolve hproper habs hresolve hexists hbare.not_astray
    cases hcovered : covered ev.guard.rules ⟨.single, l⟩ with
    | true => rfl
    | false =>
      obtain ⟨-, hclean⟩ :=
        clean_of_permission hpolicy hpermission hplaced hbelow hfind hfile hcovered
      exact absurd hclean nofun

theorem failsClosed_iff_of_notInRepo (hproper : ev.base.Proper) (habs : ev.base.isAbsolute = true)
    (hpolicy : ev.guard.policy = .restricted .notInRepo) (hbare : w.Bare ev.base raw) :
    ev.FailsClosed w flags raw ↔ ∀ t, ¬ev.Releases w flags raw t := by
  constructor
  · intro h t hreleases
    have heval := evaluate_of_releases hproper habs hpolicy hbare hreleases
    obtain hfile | ⟨-, -, -, l, e, hbelow, hfind, hfile, huncovered⟩ := hreleases.loses
    · exact absurd (hfile.symm.trans (h.leaf _ t heval rfl)) nofun
    · exact absurd (huncovered.symm.trans (h.tree _ t heval rfl l e hbelow hfind hfile)) nofun
  · intro h
    constructor
    · intro o t heval ho
      rw [← Bool.not_eq_false]
      exact fun hfile => h t (releases_of_evaluate hproper habs hbare heval ho (.inl hfile))
    · intro o t heval ho l e hbelow hfind hfile
      rw [← Bool.not_eq_false]
      exact fun huncovered => h t (releases_of_evaluate hproper habs hbare heval ho
        (.inr ⟨l, e, hbelow, hfind, hfile, huncovered⟩))

end Evaluator

/-- What a batch lets go while the status of the repository is not known: for an argument, nothing
without a bypass or a rule, if git names a root again in the project root; for a run that acts on
the batch, the same. If git names none, what lies in the project may go, and if git cannot be run
in the project root, only what has its path. -/
structure Batch.Withholds (b : Batch) (w : World) : Prop where
  judged : ∀ flags raw, w.Bare b.evaluator.base raw → (b.evaluator.FailsClosed w flags raw ↔
    (∃ top, w.repositoryRoot b.projectRoot = .ok (some top)) ∨
      ∀ t, ¬b.evaluator.Releases w flags raw t)
  rooted : ¬w.Enters b.projectRoot → ∀ flags raw t, w.Bare b.evaluator.base raw →
    b.evaluator.Releases w flags raw t → t.resolved = b.projectRoot ∧ t.isDir = false
  removed : ∀ words l e, w.tree.find? l = some e → e.isDir = false →
    (w.run ("rm" :: words)).world.tree.find? l = none →
    ∃ sel j s, w.Removing ("rm" :: words) sel j s ∧
      (j.batch = b → (∀ raw ∈ sel.paths, w.Bare b.evaluator.base raw) →
        covered b.evaluator.guard.rules ⟨.single, l⟩ = true ∨
          (∃ o t, s.Loses (.start w) j.outcomes o l ∧ Remover.Allows o t true) ∨
          w.repositoryRoot b.projectRoot = .ok none ∧
            (Path.mk .single l).isWithin b.projectRoot = true ∧
              (¬w.Enters b.projectRoot → b.projectRoot = ⟨.single, l⟩))

/-- Under a strict configuration a repository that does not tell its status loses nothing without a
bypass or a rule, as long as git finds it again in the project root. -/
theorem World.withholds_of_outage (hproper : cwd.Proper) (habs : cwd.isAbsolute = true)
    (hstrict : config.settings.allowProjectDeletion = false)
    (hbatch : w.startBatch config cwd none none = .ok b) (houtage : w.Outage cwd) :
    b.Withholds w := by
  obtain ⟨rfl, hpolicy⟩ := startBatch_of_outage houtage hstrict hbatch
  constructor
  · intro flags raw hbare
    obtain ⟨top, hagain, hpolicy⟩ | ⟨hnone, hpolicy⟩ := hpolicy
    · exact iff_of_true (Evaluator.failsClosed_of_failure hproper habs hpolicy hbare)
        (.inl ⟨top, hagain⟩)
    · rw [Evaluator.failsClosed_iff_of_notInRepo hproper habs hpolicy hbare, hnone]
      simp
  · exact fun henters flags raw t hbare hreleases =>
      hreleases.eq_root hproper habs henters hbare
  · intro words l e hfind hfile hgone
    obtain ⟨sel, j, s, o, hremoving, hloses⟩ := exists_removing hfind hgone
    refine ⟨sel, j, s, hremoving, ?_⟩
    rintro rfl hbare
    obtain ⟨t, bypassed, hallows, hraw, hevaluate, hplace⟩ := evaluate_of_loses hremoving hloses
    cases bypassed with
    | true => exact .inr (.inl ⟨o, t, hloses, hallows⟩)
    | false =>
      have hbare := hbare o.raw hraw
      obtain ⟨-, hresolve, -, hexists, -⟩ := Evaluator.permission_of_evaluate hevaluate hallows
      have hplaced := placed_of_resolve hproper habs hresolve hexists hbare.not_astray
      have hbelow := hplace hplaced
      cases hcovered : covered j.batch.evaluator.guard.rules ⟨.single, l⟩ with
      | true => exact .inl rfl
      | false =>
        obtain ⟨top, -, hpolicy⟩ | ⟨hnone, -⟩ := hpolicy
        · have hcloses : j.batch.evaluator.FailsClosed w sel.flags o.raw :=
            Evaluator.failsClosed_of_failure hproper habs hpolicy hbare
          exact absurd (hcovered.symm.trans
            (hcloses.tree o t hevaluate hallows l e hbelow hfind hfile)) nofun
        · exact .inr (.inr ⟨hnone, Evaluator.root_of_lost hproper habs hbare hevaluate hallows
            hplaced hbelow hfind hfile hcovered⟩)

def strictConfig : Config :=
  ⟨⟨false, []⟩, [], none⟩

def outageWorld (tree : FileTree) (root : Location) : World where
  tree := tree
  cwd := World.pathOf root
  env := []
  users := []
  ownHome := none
  git := some ⟨⟨0, World.pathOf root ++ "\n", ""⟩, .noRepository, .noRepository⟩
  trashError := none

theorem World.silent_outageWorld (tree : FileTree) (root : Location) (top : Path) :
    (outageWorld tree root).Silent top := by
  refine silent_of_status fun l answers hanswers => ?_
  obtain rfl := Option.some.inj hanswers
  exact (by decide : (128 : Int) ≠ 0)

def plainTree : FileTree :=
  FileTree.empty.put ["p", "f"] (.file ByteArray.empty .nothing)

def plainBatch : Batch :=
  ⟨⟨⟨.single, ["p"]⟩, ⟨[], ⟨.single, ["p"]⟩, .restricted (.failure ⟨.single, ["p"]⟩)⟩⟩,
    some (.failure ⟨.single, ["p"]⟩)⟩

theorem World.withholds_of_outage_plain :
    (outageWorld plainTree ["p"]).startBatch strictConfig ⟨.single, ["p"]⟩ none none =
        .ok plainBatch ∧
      (outageWorld plainTree ["p"]).Outage ⟨.single, ["p"]⟩ ∧
      (outageWorld plainTree ["p"]).Enters plainBatch.projectRoot ∧
      plainBatch.evaluator.FailsClosed (outageWorld plainTree ["p"]) ⟨false, false⟩ "f" := by
  have hbatch : (outageWorld plainTree ["p"]).startBatch strictConfig ⟨.single, ["p"]⟩ none none =
      .ok plainBatch := toOption_eq_some.mp (by decide +kernel)
  have hanswer : (outageWorld plainTree ["p"]).askGit ⟨.single, ["p"]⟩ .topLevel =
      .ok (.answered "/p\n") := toOption_eq_some.mp (by decide +kernel)
  have hagain : (outageWorld plainTree ["p"]).repositoryRoot plainBatch.projectRoot =
      .ok (some ⟨.single, ["p"]⟩) := toOption_eq_some.mp (by decide +kernel)
  have houtage : (outageWorld plainTree ["p"]).Outage ⟨.single, ["p"]⟩ :=
    ⟨⟨_, hanswer, by decide⟩, fun _ top _ _ => silent_outageWorld _ _ top⟩
  have hproper : (Path.mk .single ["p"]).Proper := Path.proper_ofString "/p"
  have hbare : (outageWorld plainTree ["p"]).Bare plainBatch.evaluator.base "f" := by
    intro hslashed
    exact absurd hslashed (by decide)
  have hwithholds := withholds_of_outage hproper rfl rfl hbatch houtage
  exact ⟨hbatch, houtage, enters_of_answered hanswer,
    (hwithholds.judged _ _ hbare).mpr (.inl ⟨_, hagain⟩)⟩

/-- A repository in a directory whose name ends in a blank, beside a file of that name without the
blank. -/
def blankTree : FileTree :=
  (FileTree.empty.put ["p", "a "] (.dir .nothing)).put ["p", "a"] (.file ByteArray.empty .nothing)

def blankBatch : Batch :=
  ⟨⟨⟨.single, ["p", "a "]⟩, ⟨[], ⟨.single, ["p", "a"]⟩, .restricted .notInRepo⟩⟩, some .notInRepo⟩

/-- The file is taken for the root; no git can be run there, so it may go. -/
theorem World.not_failsClosed_blank_end :
    (outageWorld blankTree ["p", "a "]).startBatch strictConfig ⟨.single, ["p", "a "]⟩ none none =
        .ok blankBatch ∧
      (outageWorld blankTree ["p", "a "]).Outage ⟨.single, ["p", "a "]⟩ ∧
      (outageWorld blankTree ["p", "a "]).askGit ⟨.single, ["p", "a "]⟩ .topLevel =
        .ok (.answered (pathOf ["p", "a "] ++ "\n")) ∧
      (outageWorld blankTree ["p", "a "]).Enters ⟨.single, ["p", "a "]⟩ ∧
      (outageWorld blankTree ["p", "a "]).Silent ⟨.single, ["p", "a "]⟩ ∧
      (outageWorld blankTree ["p", "a "]).Bare blankBatch.evaluator.base "/p/a" ∧
      ¬blankBatch.evaluator.FailsClosed (outageWorld blankTree ["p", "a "]) ⟨false, false⟩
        "/p/a" := by
  have hbatch : (outageWorld blankTree ["p", "a "]).startBatch strictConfig ⟨.single, ["p", "a "]⟩
      none none = .ok blankBatch := toOption_eq_some.mp (by decide +kernel)
  have hanswer : (outageWorld blankTree ["p", "a "]).askGit ⟨.single, ["p", "a "]⟩ .topLevel =
      .ok (.answered (pathOf ["p", "a "] ++ "\n")) := toOption_eq_some.mp (by decide +kernel)
  have hevaluate : blankBatch.evaluator.evaluate (outageWorld blankTree ["p", "a "]) ⟨false, false⟩
      "/p/a" = .ok ⟨"/p/a", .judged ⟨"/p/a", ⟨.single, ["p", "a"]⟩, ⟨.single, ["p", "a"]⟩, .file,
        none, false⟩ (.verdict (.allow false))⟩ := toOption_eq_some.mp (by decide +kernel)
  refine ⟨hbatch, ⟨⟨_, hanswer, by decide +kernel⟩, fun _ top _ _ => silent_outageWorld _ _ top⟩,
    hanswer, enters_of_answered hanswer, silent_outageWorld _ _ _,
    fun hslashed => absurd hslashed (by decide), fun h => ?_⟩
  exact absurd (h.leaf _ _ hevaluate rfl) nofun

/-- A repository whose work tree is set to be another directory, where git finds none. -/
def detachedWorld : World where
  tree := (FileTree.empty.put ["p"] (.dir .nothing)).put ["o", "f"]
    (.file ByteArray.empty .nothing)
  cwd := "/p"
  env := []
  users := []
  ownHome := none
  git := some ⟨⟨0, "/o\n", ""⟩, .noRepository, .noRepository⟩
  trashError := none
  gitIn l := if l = ["o"] then some ⟨.noRepository, .noRepository, .noRepository⟩ else none

def detachedBatch : Batch :=
  ⟨⟨⟨.single, ["p"]⟩, ⟨[], ⟨.single, ["o"]⟩, .restricted .notInRepo⟩⟩, some .notInRepo⟩

/-- Git can be run in the root that it names, but it finds no repository there, so all may go. -/
theorem World.not_failsClosed_detached :
    detachedWorld.startBatch strictConfig ⟨.single, ["p"]⟩ none none = .ok detachedBatch ∧
      detachedWorld.askGit ⟨.single, ["p"]⟩ .topLevel = .ok (.answered "/o\n") ∧
      detachedWorld.Enters ⟨.single, ["o"]⟩ ∧ (∀ top, detachedWorld.Silent top) ∧
      detachedWorld.Bare detachedBatch.evaluator.base "/o/f" ∧
      ¬detachedBatch.evaluator.FailsClosed detachedWorld ⟨false, false⟩ "/o/f" := by
  have hbatch : detachedWorld.startBatch strictConfig ⟨.single, ["p"]⟩ none none =
      .ok detachedBatch := toOption_eq_some.mp (by decide +kernel)
  have hanswer : detachedWorld.askGit ⟨.single, ["p"]⟩ .topLevel = .ok (.answered "/o\n") :=
    toOption_eq_some.mp (by decide +kernel)
  have hevaluate : detachedBatch.evaluator.evaluate detachedWorld ⟨false, false⟩ "/o/f" =
      .ok ⟨"/o/f", .judged ⟨"/o/f", ⟨.single, ["o", "f"]⟩, ⟨.single, ["o", "f"]⟩, .file, none,
        false⟩ (.verdict (.allow false))⟩ := toOption_eq_some.mp (by decide +kernel)
  have hsilent (top : Path) : detachedWorld.Silent top := by
    refine silent_of_status fun l answers hanswers => ?_
    obtain rfl := Option.some.inj hanswers
    by_cases hl : l = ["o"] <;> simp [detachedWorld, hl, Git.Reply.noRepository]
  refine ⟨hbatch, hanswer, ⟨["o"], toOption_eq_some.mp (by decide +kernel), by decide +kernel⟩,
    hsilent, fun hslashed => absurd hslashed (by decide), fun h => ?_⟩
  exact absurd (h.leaf _ _ hevaluate rfl) nofun

end DeletionGuard

import DeletionGuard.Proofs.Path.Agreement
import DeletionGuard.Target

/-!
Where targets are. An argument has a target in one of five ways. A target that exists is the entry
at its canonical path, unless the argument is a link that leads to itself and ends in a slash.
-/
namespace DeletionGuard

/-- The canonical path of a target is the true place of an entry of its kind. -/
def Target.Placed (t : Target) (tree : FileTree) : Prop :=
  t.resolved.root = .single ∧ ∃ e, tree.find? t.resolved.parts = some e ∧ t.kind = .ofEntry e

theorem Target.isDir_of_kind {t : Target} {e : Entry} (h : t.kind = .ofEntry e) :
    t.isDir = e.isDir := by
  rw [isDir, h]
  cases e <;> rfl

theorem Target.exists_of_isDir {t : Target} (h : t.isDir = true) : t.exists? = true := by
  have hkind : t.kind = .directory := by simpa [isDir] using h
  rw [exists?, hkind]
  rfl

namespace Target.Placed
variable {t : Target} {tree : FileTree}

theorem occupied (h : t.Placed tree) : World.Rooted tree.Occupied t.resolved := by
  obtain ⟨hroot, e, he, -⟩ := h
  exact ⟨hroot, e, he⟩

theorem solid (h : t.Placed tree) (hdir : t.isDir = true) :
    World.Rooted tree.Solid t.resolved := by
  obtain ⟨hroot, e, he, hkind⟩ := h
  exact ⟨hroot, e, he, FileTree.isLink_of_isDir ((isDir_of_kind hkind).symm.trans hdir)⟩

theorem isDir_eq (h : t.Placed tree) : tree.isDir t.resolved.parts = t.isDir := by
  obtain ⟨-, e, he, hkind⟩ := h
  rw [FileTree.isDir, he, Option.any_some, isDir_of_kind hkind]

end Target.Placed

namespace World
open FileTree
variable {w : World} {base p : Path} {raw : String} {t : Target} {l m : Location} {e : Entry}

theorem obstacle_eq_failure {f f' : Failure} :
    obstacle p f = .failure f' ↔ f = .nulInPath ∧ f' = .nulInPath := by
  by_cases hnul : f = .nulInPath <;> simp [obstacle, hnul, eq_comm]

theorem path_of_obstacle {f : Failure} {u : Unverifiable} (h : obstacle p f = .unverifiable u) :
    u.path = p := by
  unfold obstacle at h
  split at h
  · exact absurd h nofun
  · rw [← Obstacle.unverifiable.inj h]

theorem exists_obstacle {o : Obstacle} (h : w.resolve base raw = .error o) :
    ∃ f, obstacle (w.absolutePath base raw) f = o := by
  rw [resolve, mapError_eq_error] at h
  obtain ⟨f, -, hobstacle⟩ := h
  exact ⟨f, hobstacle⟩

theorem path_of_unverifiable {u : Unverifiable}
    (h : w.resolve base raw = .error (.unverifiable u)) : u.path = w.absolutePath base raw := by
  obtain ⟨f, hobstacle⟩ := exists_obstacle h
  exact path_of_obstacle hobstacle

theorem failure_of_resolve {f : Failure} (h : w.resolve base raw = .error (.failure f)) :
    f = .nulInPath := by
  obtain ⟨f', hobstacle⟩ := exists_obstacle h
  exact (obstacle_eq_failure.mp hobstacle).2

/-- How a target comes about from what is seen at the absolute path of an argument. -/
inductive Sighting (w : World) (raw : String) (p : Path) (t : Target) : Prop where
  | absent (errno : Errno) (path : String) (hseen : w.lstat p.text = .error (.call errno path))
      (habsent : errno = .noEntry ∨ errno = .notDirectory)
      (hkind : t.kind = .missing) (hflag : t.notDirectory = decide (errno = .notDirectory))
  | entry (e : Entry) (hseen : w.lstat p.text = .ok e) (hplain : e.isLink = false)
      (hresolved : w.resolveStrict p = .ok t.resolved) (hkind : t.kind = .ofEntry e)
      (hflag : t.notDirectory = (Text.endsWith raw "/" && decide (t.kind = .file)))
  | link (target : String) (hseen : w.lstat p.text = .ok (.link target)) (parent : Path)
      (hparent : w.resolveStrict p.parent = .ok parent)
      (hresolved : t.resolved = parent.child p.name)
      (hkind : t.kind = .symlink) (hflag : t.notDirectory = Text.endsWith raw "/")
  | through (target : String) (hseen : w.lstat p.text = .ok (.link target))
      (hresolved : w.resolveLenient p = .ok t.resolved) (hdir : w.isDir t.resolved.text = .ok true)
      (hslash : Text.endsWith raw "/" = true) (hkind : t.kind = .directory)
      (hflag : t.notDirectory = false)

theorem observe_eq_ok {kind : Kind} {flag : Bool} (h : w.observe p = .ok (kind, flag)) :
    (∃ e, w.lstat p.text = .ok e ∧ kind = .ofEntry e ∧ flag = false) ∨
      ∃ errno path, w.lstat p.text = .error (.call errno path) ∧
        (errno = .noEntry ∨ errno = .notDirectory) ∧ kind = .missing ∧
        flag = decide (errno = .notDirectory) := by
  unfold observe at h
  split at h
  · rename_i e hseen
    obtain ⟨rfl, rfl⟩ := Prod.mk.inj (Except.ok.inj h)
    exact .inl ⟨e, hseen, rfl, rfl⟩
  · rename_i path hseen
    obtain ⟨rfl, rfl⟩ := Prod.mk.inj (Except.ok.inj h)
    exact .inr ⟨_, path, hseen, .inl rfl, rfl, rfl⟩
  · rename_i path hseen
    obtain ⟨rfl, rfl⟩ := Prod.mk.inj (Except.ok.inj h)
    exact .inr ⟨_, path, hseen, .inr rfl, rfl, rfl⟩
  · exact absurd h nofun

theorem sighting_of_resolve (h : w.resolve base raw = .ok t) :
    Sighting w raw (w.absolutePath base raw) t := by
  rw [resolve, mapError_eq_ok, bind_eq_ok] at h
  obtain ⟨⟨kind, flag⟩, hobserve, hplace⟩ := h
  unfold place at hplace
  obtain ⟨e, hseen, hkind, rfl⟩ | ⟨errno, path, hseen, habsent, rfl, rfl⟩ := observe_eq_ok hobserve
  · cases e with
    | link target =>
      obtain rfl : kind = .symlink := hkind
      simp only [bind_eq_ok] at hplace
      obtain ⟨parent, hparent, destination, hdestination, hplace⟩ := hplace
      cases hslash : Text.endsWith raw "/" with
      | false =>
        rw [hslash, if_neg Bool.false_ne_true] at hplace
        obtain rfl := Except.ok.inj hplace
        exact .link target hseen parent hparent rfl rfl hslash.symm
      | true =>
        rw [hslash, if_pos rfl] at hplace
        obtain ⟨isDir, hdir, rfl⟩ := map_eq_ok.mp hplace
        cases isDir with
        | true => exact .through target hseen hdestination hdir hslash rfl rfl
        | false => exact .link target hseen parent hparent rfl rfl hslash.symm
    | file data deny =>
      obtain rfl : kind = .file := hkind
      obtain ⟨resolved, hresolved, rfl⟩ := map_eq_ok.mp hplace
      exact .entry _ hseen rfl hresolved rfl rfl
    | dir deny =>
      obtain rfl : kind = .directory := hkind
      obtain ⟨resolved, hresolved, rfl⟩ := map_eq_ok.mp hplace
      exact .entry _ hseen rfl hresolved rfl rfl
    | fifo deny =>
      obtain rfl : kind = .file := hkind
      obtain ⟨resolved, hresolved, rfl⟩ := map_eq_ok.mp hplace
      exact .entry _ hseen rfl hresolved rfl rfl
  · obtain ⟨resolved, -, rfl⟩ := map_eq_ok.mp hplace
    exact .absent errno path hseen habsent rfl rfl

theorem resolve_of_link {parent destination : Path} {target : String}
    (hseen : w.lstat (w.absolutePath base raw).text = .ok (.link target))
    (hslash : Text.endsWith raw "/" = false)
    (hparent : w.resolveStrict (w.absolutePath base raw).parent = .ok parent)
    (hlenient : w.resolveLenient (w.absolutePath base raw) = .ok destination) :
    w.resolve base raw = .ok ⟨raw, w.absolutePath base raw,
      parent.child (w.absolutePath base raw).name, .symlink, some destination, false⟩ := by
  have hobserve : w.observe (w.absolutePath base raw) = .ok (.symlink, false) := by
    unfold observe
    simp only [hseen]
    rfl
  unfold resolve
  simp only [hobserve, Except.bind, place, hparent, hlenient, hslash]
  rfl

theorem leads_of_locate (hp : p.Proper) (habs : p.isAbsolute = true)
    (hm : w.locate .keep p.text = .ok m) (hfind : w.tree.find? m = some e)
    (hplain : e.isLink = false) : w.tree.Leads [] p.parts m := by
  have hwalk := walk_of_locate hp habs hm
  by_cases hne : p.parts = []
  · rw [hne] at hwalk ⊢
    obtain rfl : [] = m := by simpa using hwalk
    exact .stay []
  · rw [List.isEmpty_eq_false_iff.mpr hne] at hwalk
    obtain ⟨k, hlead, harrive⟩ := arrives_of_walk hne hwalk
    rw [← List.dropLast_concat_getLast hne]
    cases harrive with
    | onto hturn => exact leads_append.mpr ⟨k, hlead, .onto hturn (.stay m)⟩
    | link target hturn =>
      rw [(turn_link hturn).2.2.2] at hfind
      rw [← Option.some.inj hfind] at hplain
      exact absurd hplain nofun

theorem turn_of_locate {target : String} (hp : p.Proper) (habs : p.isAbsolute = true)
    (hm : w.locate .keep p.text = .ok m) (hfind : w.tree.find? m = some (.link target)) :
    ∃ k, w.tree.Leads [] p.parent.parts k ∧ m = k ++ [p.name] ∧
      w.tree.turn k p.name = .ok (.link (k ++ [p.name]) target) := by
  have hwalk := walk_of_locate hp habs hm
  by_cases hne : p.parts = []
  · rw [hne] at hwalk
    obtain rfl : [] = m := by simpa using hwalk
    rw [find?_nil] at hfind
    exact absurd hfind nofun
  · rw [List.isEmpty_eq_false_iff.mpr hne] at hwalk
    obtain ⟨k, hlead, harrive⟩ := arrives_of_walk hne hwalk
    have hturn := harrive.of_link (hlead.solid (solid_nil _)) hfind
    rw [← Path.name_eq_getLast hne] at hturn
    obtain ⟨-, -, rfl, -⟩ := turn_link hturn
    exact ⟨k, hlead, rfl, hturn⟩

theorem leads_of_lstat (hp : p.Proper) (habs : p.isAbsolute = true) (hseen : w.lstat p.text = .ok e)
    (hplain : e.isLink = false) : ∃ m, w.tree.Leads [] p.parts m ∧ w.tree.find? m = some e := by
  obtain ⟨m, hm, hfind⟩ := entryAt_eq_ok.mp hseen
  exact ⟨m, leads_of_locate hp habs hm hfind hplain, hfind⟩

theorem leads_of_lstat_link {target : String} (hp : p.Proper) (habs : p.isAbsolute = true)
    (hseen : w.lstat p.text = .ok (.link target)) :
    ∃ k, w.tree.Leads [] p.parent.parts k ∧
      w.tree.turn k p.name = .ok (.link (k ++ [p.name]) target) := by
  obtain ⟨m, hm, hfind⟩ := entryAt_eq_ok.mp hseen
  obtain ⟨k, hlead, -, hturn⟩ := turn_of_locate hp habs hm hfind
  exact ⟨k, hlead, hturn⟩

theorem stat_of_isDir {path : String} (h : w.isDir path = .ok true) :
    ∃ e, w.stat path = .ok e ∧ e.isDir = true := by
  unfold isDir test at h
  split at h
  · rename_i e hstat
    exact ⟨e, hstat, Except.ok.inj h⟩
  · split at h <;> exact absurd h (by simp)

/-- An argument names a link that leads to itself, ends in a slash, and is resolved to a path that
is made up: there is nothing of its kind at that place. -/
structure Astray (w : World) (base : Path) (raw : String) : Prop where
  slashed : Text.endsWith raw "/" = true
  link : ∃ target, w.lstat (w.absolutePath base raw).text = .ok (.link target)
  circular : w.Circular (w.absolutePath base raw)
  unplaced : ∃ t, w.resolve base raw = .ok t ∧ ¬t.Placed w.tree

/-- An argument is no link that is named with a slash at its end. -/
def Bare (w : World) (base : Path) (raw : String) : Prop :=
  Text.endsWith raw "/" = true →
    ∀ target, w.lstat (w.absolutePath base raw).text ≠ .ok (.link target)

theorem Bare.not_astray (h : w.Bare base raw) : ¬w.Astray base raw := by
  rintro ⟨hslashed, ⟨target, hlink⟩, -, -⟩
  exact h hslashed target hlink

theorem proper_absolutePath (hbase : base.Proper) : (w.absolutePath base raw).Proper :=
  hbase.join (Path.proper_ofString _)

theorem isAbsolute_absolutePath (hbase : base.isAbsolute = true) :
    (w.absolutePath base raw).isAbsolute = true :=
  Path.isAbsolute_join hbase _

/-- A target that exists is the entry at its canonical path, unless the argument went astray. -/
theorem placed_of_resolve (hproper : base.Proper) (habs : base.isAbsolute = true)
    (h : w.resolve base raw = .ok t) (hexists : t.exists? = true)
    (hastray : ¬w.Astray base raw) : t.Placed w.tree := by
  have hp : (w.absolutePath base raw).Proper := proper_absolutePath hproper
  have ha : (w.absolutePath base raw).isAbsolute = true := isAbsolute_absolutePath habs
  cases sighting_of_resolve h with
  | absent errno path hseen habsent hkind =>
    rw [Target.exists?, hkind] at hexists
    exact absurd hexists (by decide)
  | entry e hseen hplain hresolved hkind hflag =>
    obtain ⟨m, hlead, hfind⟩ := leads_of_lstat hp ha hseen hplain
    unfold Target.Placed
    rw [resolveStrict_leads hp ha hlead hresolved]
    exact ⟨rfl, e, hfind, hkind⟩
  | link target hseen parent hparent hresolved hkind hflag =>
    obtain ⟨k, hlead, hturn⟩ := leads_of_lstat_link hp ha hseen
    have ha' : (w.absolutePath base raw).parent.isAbsolute = true :=
      (Path.isAbsolute_parent _).trans ha
    unfold Target.Placed
    rw [hresolved, resolveStrict_leads hp.parent ha' hlead hparent]
    exact ⟨rfl, _, (turn_link hturn).2.2.2, hkind⟩
  | through target hseen hresolved hdir hslash hkind hflag =>
    by_cases hcircle : w.Circular (w.absolutePath base raw)
    · exact Classical.byContradiction fun hplaced =>
        hastray ⟨hslash, ⟨target, hseen⟩, hcircle, t, h, hplaced⟩
    · -- the lenient form leaves no link in the path, so the directory is found at its true place
      obtain ⟨hroot, hunlinked⟩ := unlinked_of_resolveLenient ha hresolved hcircle
      have hpath : t.resolved = ⟨.single, t.resolved.parts⟩ := by rw [← hroot]
      rw [hpath] at hdir
      obtain ⟨e, hstat, he⟩ := stat_of_isDir hdir
      have hsolid := hunlinked.solid hstat
      obtain ⟨m, hm, hfind⟩ := entryAt_eq_ok.mp hstat
      rw [locate_follow (PartOf.refl _) (hunlinked.proper .single) rfl hsolid hm] at hfind
      refine ⟨hroot, e, hfind, ?_⟩
      rw [hkind]
      cases e with
      | dir deny => rfl
      | file | link | fifo => exact absurd he nofun

theorem expandUser_of_startsWith {path : String} (h : Text.startsWith path "/" = true) :
    w.expandUser path = path := by
  have hhead : path.toList.head? = some '/' := (Text.startsWith_slash_iff path).mp h
  unfold expandUser
  split
  · rename_i cs hcs
    rw [hcs] at hhead
    exact absurd (Option.some.inj hhead) (by decide)
  · rfl

theorem absolutePath_text (hp : p.Proper) (habs : p.isAbsolute = true) :
    w.absolutePath base p.text = p := by
  rw [absolutePath, expandUser_of_startsWith (Path.startsWith_text habs),
    Path.ofString_text hp habs, Path.join, if_pos habs]

theorem resolved_of_place (hp : Rooted w.tree.Occupied p) (hne : p.parts ≠ [])
    (h : w.resolve base p.text = .ok t) : t.exists? = true ∧ t.resolved = p := by
  obtain ⟨e, hfind⟩ := hp.2
  have hpath : p = ⟨.single, p.parts⟩ := by rw [← hp.1]
  have hslash : Text.endsWith p.text "/" = false := Path.endsWith_text hp.proper hne
  have hsighting := sighting_of_resolve h
  rw [absolutePath_text hp.proper hp.isAbsolute] at hsighting
  cases hsighting with
  | absent errno path hseen habsent hkind hflag =>
    obtain hplace | hplace | hplace | hplace := lstat_place hp.proper hp.isAbsolute hfind <;>
      rw [hseen] at hplace <;> cases hplace <;> exact absurd habsent (by decide)
  | entry e' hseen hplain hresolved hkind hflag =>
    have hfind' := find?_of_lstat hp.proper hp.isAbsolute (plain_of_find? hfind) hseen
    obtain ⟨m, hlead, -⟩ := leads_of_lstat hp.proper hp.isAbsolute hseen hplain
    have hsolid : w.tree.Solid ([] ++ p.parts) := ⟨e', hfind', hplain⟩
    obtain rfl : m = p.parts := hlead.eq_place (PartOf.refl _) hsolid
    refine ⟨?_, ?_⟩
    · rw [Target.exists?, hkind]
      cases e' with
      | link target => exact absurd hplain nofun
      | file | dir | fifo => rfl
    · rw [resolveStrict_leads hp.proper hp.isAbsolute hlead hresolved, ← hpath]
  | link target hseen parent hparent hresolved hkind hflag =>
    obtain ⟨m, hlead, -⟩ := leads_of_lstat_link hp.proper hp.isAbsolute hseen
    have hsolid : w.tree.Solid ([] ++ p.parent.parts) := solid_of_isDir (isDir_dropLast hfind)
    obtain rfl : m = p.parent.parts := hlead.eq_place (PartOf.refl _) hsolid
    have habs : p.parent.isAbsolute = true := (Path.isAbsolute_parent p).trans hp.isAbsolute
    refine ⟨by rw [Target.exists?, hkind]; rfl, ?_⟩
    have hroot : Path.mk .single p.parent.parts = p.parent := by rw [← hp.1]; rfl
    rw [hresolved, resolveStrict_leads hp.proper.parent habs hlead hparent, hroot,
      Path.child_parent_name hne]
  | through target hseen hresolved hdir hslashed hkind hflag =>
    rw [hslash] at hslashed
    exact absurd hslashed nofun

end World
end DeletionGuard

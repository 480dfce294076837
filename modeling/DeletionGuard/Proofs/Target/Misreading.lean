import DeletionGuard.Proofs.Run.Verdicts
import DeletionGuard.Proofs.Target.Sight

/-!
Where resolution of an argument and the system part. An argument is misread in three ways, and in no
other: the empty one stands for the base directory, a dot at the end is dropped behind a file or a
link, and a link named with a slash is resolved to a directory that the system does not find.
-/
namespace DeletionGuard
namespace World
open FileTree
variable {w : World} {base : Path} {raw : String} {t : Target} {start l : Location} {n : Nat}
  {front : List String} {e : Entry} {k : Kind}

/-- An argument is resolved to a target that is not what the system finds there. -/
inductive Misread (w : World) (base : Path) (raw : String) (t : Target) : Prop where
  | empty (hempty : w.expandUser raw = "")
  | dot (hslash : Text.endsWith raw "/" = false)
      (hdot : (Route.ofString (w.expandUser raw)).steps.getLast? = some ".")
      (hkind : t.kind = .file ∨ t.kind = .symlink) (hseen : (w.sight base raw).isSome)
  | gone (hslash : Text.endsWith raw "/" = true)
      (hlink : ∃ target, w.lstat (w.absolutePath base raw).text = .ok (.link target))
      (hseen : w.sight base raw = some .missing)

theorem Sighting.of_missing {p : Path} (h : Sighting w raw p t) (hkind : t.kind = .missing) :
    ∃ errno path, w.lstat p.text = .error (.call errno path) ∧
      (errno = .noEntry ∨ errno = .notDirectory) := by
  cases h with
  | absent errno path hseen habsent _ _ => exact ⟨errno, path, hseen, habsent⟩
  | entry e _ hplain _ hkind' _ =>
    rw [hkind] at hkind'
    cases e <;> cases hkind'
  | link _ _ _ _ _ hkind' _ => exact absurd (hkind.symm.trans hkind') nofun
  | through _ _ _ _ _ hkind' _ => exact absurd (hkind.symm.trans hkind') nofun

theorem sight_of_empty (hempty : w.expandUser raw = "") : w.sight base raw = some .missing := by
  rw [sight, hempty]
  rfl

theorem absolutePath_of_empty (hempty : w.expandUser raw = "") :
    w.absolutePath base raw = base := by
  have hnothing : Path.ofString "" = ⟨.relative, []⟩ := by decide
  rw [absolutePath, hempty, hnothing, Path.join]
  simp [Path.isAbsolute]

theorem eq_nil_of_straight {text : String} (hf : Footing w base text front start n)
    (hne : text ≠ "") (hsteps : (Route.ofString text).steps = [])
    (h : w.straight front text = .ok l) : l = [] := by
  have habs : (Path.ofString text).isAbsolute = true := by
    rw [Path.isAbsolute_ofString]
    exact Path.startsWith_of_steps_eq_nil hne hsteps
  have hparts := hf.parts
  rw [Path.join, if_pos habs, Path.parts_ofString, hsteps] at hparts
  unfold straight at h
  rw [hsteps, ← hparts] at h
  simpa [withoutDots] using h.symm

theorem kind_of_sight (hf : Footing w base (w.expandUser raw) front start n)
    (hne : w.expandUser raw ≠ "") (hstraight : w.straight front (w.expandUser raw) = .ok l)
    (hfind : w.tree.find? l = some e) (hfile : e.isDir = false)
    (hslash : Text.endsWith raw "/" = false)
    (hdot : (Route.ofString (w.expandUser raw)).steps.getLast? ≠ some ".")
    (hseen : w.sight base raw = some k) : k = .ofEntry e := by
  have hsteps : (Route.ofString (w.expandUser raw)).steps ≠ [] := by
    intro hnil
    exact ne_nil_of_find? hfind hfile (eq_nil_of_straight hf hne hnil hstraight)
  have hslashed : (Route.ofString (w.expandUser raw)).slashed = false := by
    rw [← Bool.not_eq_true]
    intro hslashed
    obtain h | h := endsWith_expandUser.mp hslashed
    · rw [h] at hslash
      exact absurd hslash nofun
    · rw [h] at hsteps
      exact hsteps (by decide)
  have hwritten := written_eq_straight hf hdot hsteps hslashed hstraight nofun
  obtain ⟨m, e', hm, he', rfl⟩ | ⟨x, hx, -, -⟩ := walk_of_sight hf hseen
  · rw [hwritten] at hm
    obtain rfl := Except.ok.inj hm
    rw [hfind] at he'
    rw [Option.some.inj he']
  · rw [hwritten] at hx
    exact absurd hx nofun

theorem directory_of_sight (hf : Footing w base (w.expandUser raw) front start n)
    (hstraight : w.straight front (w.expandUser raw) = .ok l) (hdir : w.tree.isDir l = true)
    (hseen : w.sight base raw = some k) : k = .directory := by
  obtain ⟨m, hm, hwritten⟩ | hwritten := written_of_isDir hf hstraight hdir
  · obtain ⟨deny, hdeny⟩ := isDir_iff.mp hm
    obtain ⟨m', e, hm', hfind, rfl⟩ | ⟨x, hx, -, -⟩ := walk_of_sight hf hseen
    · rw [hwritten] at hm'
      obtain rfl := Except.ok.inj hm'
      rw [hdeny] at hfind
      rw [← Option.some.inj hfind]
      rfl
    · rw [hwritten] at hx
      exact absurd hx nofun
  · obtain ⟨m', e, hm', -, -⟩ | ⟨x, hx, habsent, -⟩ := walk_of_sight hf hseen
    · rw [hwritten] at hm'
      exact absurd hm' nofun
    · rw [hwritten] at hx
      obtain rfl := Except.error.inj hx
      exact absurd habsent (by decide)

theorem directory_or_missing_of_sight (hf : Footing w base (w.expandUser raw) front start n)
    (hlast : (Route.ofString (w.expandUser raw)).slashed = true ∨
      (Route.ofString (w.expandUser raw)).steps.getLast? = some ".")
    (hseen : w.sight base raw = some k) : k = .directory ∨ k = .missing := by
  obtain ⟨m, e, hm, hfind, rfl⟩ | ⟨x, -, -, rfl⟩ := walk_of_sight hf hseen
  · have hkeep : Ending.keep ≠ .create := nofun
    obtain ⟨deny, hdeny⟩ := isDir_iff.mp (isDir_of_walk hkeep hlast hm)
    rw [hfind] at hdeny
    rw [Option.some.inj hdeny]
    exact .inl rfl
  · exact .inr rfl

theorem not_misread_of_agrees (hbase : w.IsBase base) (h : w.resolve base raw = .ok t)
    (hagree : ∀ k, w.sight base raw = some k → t.kind = k) : ¬w.Misread base raw t := by
  have hsighting := sighting_of_resolve h
  intro hmisread
  cases hmisread with
  | empty hempty =>
    obtain ⟨deny, hstat⟩ := hbase.directory
    obtain ⟨e, he⟩ := lstat_of_stat hbase.proper hbase.absolute hstat
    obtain ⟨errno, path, hseen, -⟩ := hsighting.of_missing (hagree _ (sight_of_empty hempty))
    rw [absolutePath_of_empty hempty, he] at hseen
    exact absurd hseen nofun
  | dot hslash hdot hkind hseen =>
    have hne : w.expandUser raw ≠ "" := by
      intro hempty
      rw [hempty] at hdot
      exact absurd hdot (by decide)
    obtain ⟨front, start, n, hf⟩ := exists_footing hbase hne
    obtain ⟨k, hk⟩ := Option.isSome_iff_exists.mp hseen
    rw [hagree k hk] at hkind
    obtain rfl | rfl := directory_or_missing_of_sight hf (.inr hdot) hk
    · exact absurd hkind (by decide)
    · exact absurd hkind (by decide)
  | gone hslash hlink hseen =>
    obtain ⟨target, htarget⟩ := hlink
    obtain ⟨errno, path, hgone, -⟩ := hsighting.of_missing (hagree _ hseen)
    rw [htarget] at hgone
    exact absurd hgone nofun

theorem missing_of_absent (hbase : w.IsBase base)
    (hf : Footing w base (w.expandUser raw) front start n) {errno : Errno} {path : String}
    (hseen : w.lstat (w.absolutePath base raw).text = .error (.call errno path))
    (habsent : errno = .noEntry ∨ errno = .notDirectory) (hk : w.sight base raw = some k) :
    k = .missing := by
  obtain ⟨m, e, hm, -, -⟩ | ⟨x, -, -, rfl⟩ := walk_of_sight hf hk
  · have hfails := straight_of_lstat_error hbase hf hseen habsent
    obtain ⟨l, hl⟩ | hl := straight_of_written hf hm
    · rw [hfails] at hl
      exact absurd hl nofun
    · rw [hfails] at hl
      cases hl
      exact absurd habsent (by decide)
  · rfl

theorem agrees_of_not_misread (hbase : w.IsBase base) (h : w.resolve base raw = .ok t)
    (hflag : t.notDirectory = false) (hread : ¬w.Misread base raw t)
    (hk : w.sight base raw = some k) : t.kind = k := by
  have hne : w.expandUser raw ≠ "" := fun hempty => hread (.empty hempty)
  obtain ⟨front, start, n, hf⟩ := exists_footing hbase hne
  have hdot (hslash : Text.endsWith raw "/" = false)
      (hkind : t.kind = .file ∨ t.kind = .symlink) :
      (Route.ofString (w.expandUser raw)).steps.getLast? ≠ some "." :=
    fun hdot => hread (.dot hslash hdot hkind (by rw [hk]; rfl))
  cases sighting_of_resolve h with
  | absent errno path hseen habsent hkind _ =>
    rw [hkind, missing_of_absent hbase hf hseen habsent hk]
  | entry e hseen hplain _ hkind hflag' =>
    obtain ⟨l, hl, hfind⟩ := straight_of_lstat hbase hf hseen
    rw [hkind]
    cases hfile : e.isDir with
    | true =>
      cases e with
      | dir deny => exact (directory_of_sight hf hl (isDir_iff.mpr ⟨deny, hfind⟩) hk).symm
      | file | link | fifo => exact absurd hfile nofun
    | false =>
      have hkind' : t.kind = .file := by
        rw [hkind]
        cases e with
        | file | fifo => rfl
        | dir deny => exact absurd hfile nofun
        | link target => exact absurd hplain nofun
      -- a file named with a slash is flagged, so there is none
      have hslash : Text.endsWith raw "/" = false := by
        rw [hflag, hkind'] at hflag'
        simpa using hflag'.symm
      exact (kind_of_sight hf hne hl hfind hfile hslash (hdot hslash (.inl hkind')) hk).symm
  | link target hseen parent _ _ hkind hflag' =>
    obtain ⟨l, hl, hfind⟩ := straight_of_lstat hbase hf hseen
    have hslash : Text.endsWith raw "/" = false := hflag'.symm.trans hflag
    rw [hkind]
    exact (kind_of_sight hf hne hl hfind rfl hslash (hdot hslash (.inr hkind)) hk).symm
  | through target hseen _ _ hslash hkind _ =>
    rw [hkind]
    have hslashed : (Route.ofString (w.expandUser raw)).slashed = true :=
      endsWith_expandUser.mpr (.inl hslash)
    obtain rfl | rfl := directory_or_missing_of_sight hf (.inl hslashed) hk
    · rfl
    · exact absurd (.gone hslash ⟨target, hseen⟩ hk) hread

theorem kind_eq_iff (hbase : w.IsBase base) (h : w.resolve base raw = .ok t)
    (hflag : t.notDirectory = false) :
    (∀ k, w.sight base raw = some k → t.kind = k) ↔ ¬w.Misread base raw t := by
  constructor
  · exact not_misread_of_agrees hbase h
  · exact fun hread k hk => agrees_of_not_misread hbase h hflag hread hk

/-- What an argument is resolved to, unless it is refused, is what the system finds there. -/
def SeesRight (w : World) (base : Path) (raw : String) : Prop :=
  ∀ t, w.resolve base raw = .ok t → t.notDirectory = false →
    ∀ k, w.sight base raw = some k → t.kind = k

/-- The system finds at an argument what resolution says, just if the argument is not misread. Then
nothing is ever allowed to be removed where the system finds nothing. -/
theorem seesRight_iff (hbase : w.IsBase base) (raw : String) :
    (w.SeesRight base raw ↔ ∀ t, w.resolve base raw = .ok t → t.notDirectory = false →
      ¬w.Misread base raw t) ∧
    (w.SeesRight base raw → w.sight base raw = some .missing →
      ∀ guard flags o, (Evaluator.mk base guard).evaluate w flags raw = .ok o → o.allowed = false) ∧
    ∀ f, w.resolve base raw = .error (.failure f) → f = .nulInPath := by
  refine ⟨⟨?_, ?_⟩, ?_, fun f => failure_of_resolve⟩
  · exact fun hsees t h hflag => (kind_eq_iff hbase h hflag).mp (hsees t h hflag)
  · exact fun hread t h hflag => (kind_eq_iff hbase h hflag).mpr (hread t h hflag)
  · intro hsees hseen guard flags o ho
    rw [← Bool.not_eq_true]
    intro hallowed
    obtain ⟨t, b, hallows⟩ := Remover.exists_allows_of_allowed hallowed
    obtain ⟨-, hresolve, hflag, hexists, -⟩ := Evaluator.permission_of_evaluate ho hallows
    have hkind := hsees t hresolve hflag _ hseen
    rw [Target.exists?, hkind] at hexists
    exact absurd hexists (by decide)

def fileWorld : World where
  tree := FileTree.empty.put ["p", "f"] (.file ByteArray.empty .nothing)
  cwd := "/p"
  env := []
  users := []
  ownHome := none
  git := none
  trashError := none

theorem isBase_fileWorld : fileWorld.IsBase (Path.ofString "/p") := by
  refine ⟨Path.proper_ofString "/p", by decide, .nothing, ?_⟩
  have hstat : (fileWorld.stat (Path.ofString "/p").text).toOption = some (.dir .nothing) := by
    decide +kernel
  cases h : fileWorld.stat (Path.ofString "/p").text with
  | error f =>
    rw [h] at hstat
    exact absurd hstat nofun
  | ok e =>
    rw [h] at hstat
    rw [Option.some.inj hstat]

theorem seesRight_file : fileWorld.SeesRight (Path.ofString "/p") "f" := by
  refine (seesRight_iff isBase_fileWorld "f").1.mpr fun t _ _ hmisread => ?_
  cases hmisread with
  | empty hempty => exact absurd hempty (by decide)
  | dot _ hdot _ _ => exact absurd hdot (by decide)
  | gone hslash _ _ => exact absurd hslash (by decide)

/-- A dot behind the name of a file is dropped, though the system finds nothing there. -/
theorem not_seesRight_file_dot : ¬fileWorld.SeesRight (Path.ofString "/p") "f/." := by
  intro hsees
  have hresolve : (fileWorld.resolve (Path.ofString "/p") "f/.").toOption.map
      (fun t => (t.kind, t.notDirectory)) = some (.file, false) := by decide +kernel
  have hseen : fileWorld.sight (Path.ofString "/p") "f/." = some .missing := by decide +kernel
  cases h : fileWorld.resolve (Path.ofString "/p") "f/." with
  | error x =>
    rw [h] at hresolve
    exact absurd hresolve nofun
  | ok t =>
    rw [h] at hresolve
    obtain ⟨hkind, hflag⟩ := Prod.mk.inj (Option.some.inj hresolve)
    have hagrees := hsees t h hflag _ hseen
    rw [hkind] at hagrees
    exact absurd hagrees nofun

end World
end DeletionGuard

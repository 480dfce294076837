import DeletionGuard.Proofs.Run.Enumeration
import DeletionGuard.Proofs.Run.Verdicts
import DeletionGuard.Proofs.Target.Canonical

/-!
Verdicts on directories. A directory is allowed just if the system lists every directory in it and
every leaf would be allowed alone; otherwise the verdict is that of one of them.
-/
namespace DeletionGuard
open FileTree
variable {ev : Evaluator} {w : World} {flags : Flags} {raw : String} {o : Outcome} {t : Target}
  {b : Block} {v : Verdict} {leaves : List Path} {p : Path} {l : Location} {e : Entry}

namespace World

theorem leaf_of_place {base : Path} (hfind : w.tree.find? l = some e) (hfile : e.isDir = false)
    (h : w.resolve base (Path.mk .single l).text = .ok t) :
    t.exists? = true ∧ t.isDir = false ∧ t.notDirectory = false := by
  have hp : (Path.mk .single l).Proper := proper_of_find? hfind
  have hne : l ≠ [] := ne_nil_of_find? hfind hfile
  have hslash : Text.endsWith (Path.mk .single l).text "/" = false := Path.endsWith_text hp hne
  obtain ⟨hexists, -⟩ := resolved_of_place ⟨rfl, e, hfind⟩ hne h
  have hsighting := sighting_of_resolve h
  rw [absolutePath_text hp rfl] at hsighting
  refine ⟨hexists, ?_⟩
  cases hsighting with
  | absent errno path hseen habsent hkind hflag =>
    rw [Target.exists?, hkind] at hexists
    exact absurd hexists (by decide)
  | entry e' hseen hplain hresolved hkind hflag =>
    have hfind' := find?_of_lstat hp rfl (plain_of_find? hfind) hseen
    obtain rfl : e = e' := Option.some.inj (hfind.symm.trans hfind')
    exact ⟨(Target.isDir_of_kind hkind).trans hfile, by rw [hflag, hslash]; rfl⟩
  | link target hseen parent hparent hresolved hkind hflag =>
    exact ⟨by rw [Target.isDir, hkind]; rfl, hflag.trans hslash⟩
  | through target hseen hresolved hdir hslashed hkind hflag =>
    rw [hslash] at hslashed
    cases hslashed

theorem notDirectory_of_isDir {base : Path} (h : w.resolve base raw = .ok t)
    (hdir : t.isDir = true) : t.notDirectory = false := by
  have hdirectory : t.kind = .directory := by simpa [Target.isDir] using hdir
  cases sighting_of_resolve h with
  | absent errno path hseen habsent hkind hflag =>
    cases hdirectory.symm.trans hkind
  | entry e hseen hplain hresolved hkind hflag => rw [hflag, hdirectory]; simp
  | link target hseen parent hparent hresolved hkind hflag =>
    cases hdirectory.symm.trans hkind
  | through target hseen hresolved hdir hslash hkind hflag => exact hflag

end World

theorem Guard.path_of_decide {g : Guard} (h : g.decide w t = .block b) :
    b.path = some t.absolute := by
  unfold decide boundary at h
  split at h
  · exact absurd h nofun
  · split at h
    · rw [← Verdict.block.inj h]
    · rw [Option.getD_none] at h
      unfold applyPolicy at h
      split at h
      · exact absurd h nofun
      · unfold Verdict.ofStatus at h
        split at h
        · rw [← Verdict.block.inj h]
        · exact absurd h nofun

namespace Evaluator

theorem verdict_leaf (ev : Evaluator) (flags : Flags) (hfind : w.tree.find? l = some e)
    (hfile : e.isDir = false) :
    (ev.evaluate w flags (Path.mk .single l).text).map Outcome.verdict? =
      (ev.judge w (Path.mk .single l).text).map some := by
  unfold evaluate judge
  cases hresolve : w.resolve ev.base (Path.mk .single l).text with
  | error x => cases x <;> rfl
  | ok t =>
    obtain ⟨hexists, hdir, hflag⟩ := World.leaf_of_place hfind hfile hresolve
    simp only [Guard.decide]
    split
    · rename_i b hboundary
      rw [hboundary]
      rfl
    · cases hbypass : ev.guard.boundary t <;>
        simp [answer, hflag, hexists, hdir, Except.map, Outcome.verdict?]

theorem alone_iff (hfind : w.tree.find? l = some e) (hfile : e.isDir = false) :
    ev.judge w (Path.mk .single l).text = .ok v ↔
      ∃ o, ev.evaluate w ⟨false, false⟩ (Path.mk .single l).text = .ok o ∧
        o.verdict? = some v := by
  have hsame := verdict_leaf ev ⟨false, false⟩ hfind hfile
  constructor
  · intro hjudge
    rw [hjudge] at hsame
    exact World.map_eq_ok.mp hsame
  · rintro ⟨o, heval, hverdict⟩
    rw [heval] at hsame
    obtain ⟨v', hv', hsome⟩ := World.map_eq_ok.mp hsame.symm
    rw [hverdict] at hsome
    rw [hv', Option.some.inj hsome]

theorem path_of_judge (h : ev.judge w raw = .ok (.block b)) :
    b.path = some (w.absolutePath ev.base raw) := by
  unfold judge at h
  cases hresolve : w.resolve ev.base raw with
  | error x =>
    rw [hresolve] at h
    cases x with
    | failure f => exact absurd h nofun
    | unverifiable u =>
      rw [← Verdict.block.inj (Except.ok.inj h), Guard.refuse, World.path_of_unverifiable hresolve]
  | ok t =>
    rw [hresolve] at h
    have hdecide : ev.guard.decide w t = .block b := Except.ok.inj h
    rw [← World.absolute_of_resolve hresolve]
    exact Guard.path_of_decide hdecide

theorem judgeAll_allow_iff : ev.judgeAll w leaves = .ok (.allow false) ↔
    ∀ leaf ∈ leaves, ∃ v, ev.judge w leaf.text = .ok v ∧ v.allowed = true := by
  induction leaves with
  | nil => simp [judgeAll_nil]
  | cons leaf rest ih =>
    rw [judgeAll_cons, List.forall_mem_cons]
    cases hjudge : ev.judge w leaf.text with
    | error f => simp
    | ok v =>
      cases v with
      | allow b => simp [Verdict.blocked, Verdict.allowed, ih]
      | block b => simp [Verdict.blocked, Verdict.allowed]

theorem judgeAll_block (h : ev.judgeAll w leaves = .ok (.block b)) :
    ∃ leaf ∈ leaves, ev.judge w leaf.text = .ok (.block b) := by
  induction leaves with
  | nil => exact absurd h nofun
  | cons leaf rest ih =>
    rw [judgeAll_cons] at h
    split at h
    · exact absurd h nofun
    · rename_i v hjudge
      split at h
      · rw [Except.ok.inj h] at hjudge
        exact ⟨leaf, List.mem_cons_self, hjudge⟩
      · obtain ⟨q, hq, hblock⟩ := ih h
        exact ⟨q, List.mem_cons_of_mem leaf hq, hblock⟩

/-- An argument names a real directory, not over a link with a slash behind it, that lies in the
project and that no rule covers. -/
structure NamesTree (ev : Evaluator) (w : World) (raw : String) (t : Target) : Prop where
  resolved : w.resolve ev.base raw = .ok t
  directory : t.isDir = true
  bare : Text.endsWith raw "/" = true →
    ∀ target, w.lstat (w.absolutePath ev.base raw).text ≠ .ok (.link target)
  within : t.isWithin ev.guard.projectRoot = true
  uncovered : covered ev.guard.rules t.resolved = false

/-- What lies at or below a location stands for the refusal of all of it. -/
inductive Offends (ev : Evaluator) (w : World) (top : Location) (b : Block) : Prop where
  /-- A directory is not listed. -/
  | folder (m : Location) (hbelow : top <+: m) (hpath : b.path = some ⟨.single, m⟩)
      (hdir : w.tree.isDir m = true) (f : Failure)
      (hlist : w.list (Path.mk .single m).text = .error f)
      (hreason : b.reason = .unreadableDirectory) (hstatus : b.status = none)
  /-- What is no directory is refused alone, in the same way. -/
  | leaf (m : Location) (hbelow : top <+: m) (hpath : b.path = some ⟨.single, m⟩) (e : Entry)
      (hfind : w.tree.find? m = some e) (hfile : e.isDir = false) (o : Outcome)
      (halone : ev.evaluate w ⟨false, false⟩ (Path.mk .single m).text = .ok o)
      (hblock : o.verdict? = some (.block b))

theorem folder_of_namesTree (hproper : ev.base.Proper) (habs : ev.base.isAbsolute = true)
    (h : ev.NamesTree w raw t) : w.Folder t.resolved := by
  have hexists : t.exists? = true := Target.exists_of_isDir h.directory
  have hastray : ¬w.Astray ev.base raw := World.Bare.not_astray h.bare
  have hplaced := World.placed_of_resolve hproper habs h.resolved hexists hastray
  exact ⟨hplaced.1, hplaced.isDir_eq.trans h.directory⟩

theorem evaluate_tree (h : ev.NamesTree w raw t) (hrecursive : flags.recursive = true) :
    ev.evaluate w flags raw =
      (ev.judgeTree w t).map fun v => ⟨raw, .judged t (.verdict v)⟩ := by
  have hflag := World.notDirectory_of_isDir h.resolved h.directory
  have hexists : t.exists? = true := Target.exists_of_isDir h.directory
  have hboundary : ev.guard.boundary t = none := by
    rw [Guard.boundary, h.uncovered, h.within]
    rfl
  unfold evaluate
  simp only [h.resolved, hboundary, answer, hflag, hexists, h.directory, hrecursive]
  cases ev.judgeTree w t <;> rfl

def Listed (w : World) (top : Location) : Prop :=
  ∀ m, top <+: m → w.tree.isDir m = true →
    ∃ entries, w.list (Path.mk .single m).text = .ok entries

def AllowedAlone (ev : Evaluator) (w : World) (top : Location) : Prop :=
  ∀ m e, top <+: m → w.tree.find? m = some e → e.isDir = false →
    ∃ o, ev.evaluate w ⟨false, false⟩ (Path.mk .single m).text = .ok o ∧ o.allowed = true

theorem leaf_of_mem (hfolder : w.Folder t.resolved)
    (hleaves : w.leavesBelow t.resolved = .ok leaves) (hp : p ∈ leaves) :
    p = ⟨.single, p.parts⟩ ∧ t.resolved.parts <+: p.parts ∧
      ∃ e, w.tree.find? p.parts = some e ∧ e.isDir = false := by
  obtain ⟨hbelow, hroot, hleaf⟩ := (World.mem_leavesBelow hfolder hleaves).mp hp
  exact ⟨by rw [← hroot], hbelow, hleaf⟩

theorem judgeTree_allow_iff (hfolder : w.Folder t.resolved) :
    ev.judgeTree w t = .ok (.allow false) ↔
      Listed w t.resolved.parts ∧ ev.AllowedAlone w t.resolved.parts := by
  unfold Listed
  rw [← World.leavesBelow_ok_iff hfolder]
  unfold judgeTree
  cases hleaves : w.leavesBelow t.resolved with
  | error u =>
    simp only [reduceCtorEq, exists_false, false_and, iff_false]
    split <;> nofun
  | ok leaves =>
    simp only [Except.ok.injEq, exists_eq', true_and]
    rw [judgeAll_allow_iff]
    constructor
    · intro hall m e hbelow hfind hfile
      have hmem : Path.mk .single m ∈ leaves :=
        (World.mem_leavesBelow hfolder hleaves).mpr ⟨hbelow, rfl, e, hfind, hfile⟩
      obtain ⟨v, hjudge, hallowed⟩ := hall _ hmem
      obtain ⟨o, heval, hverdict⟩ := (alone_iff hfind hfile).mp hjudge
      exact ⟨o, heval, by rw [Outcome.allowed, hverdict]; exact hallowed⟩
    · intro halone p hp
      obtain ⟨hpath, hbelow, e, hfind, hfile⟩ := leaf_of_mem hfolder hleaves hp
      obtain ⟨o, heval, hallowed⟩ := halone p.parts e hbelow hfind hfile
      obtain ⟨v, hverdict, hv⟩ := (Option.any_eq_true _ _).mp hallowed
      rw [hpath]
      exact ⟨v, (alone_iff hfind hfile).mpr ⟨o, heval, hverdict⟩, hv⟩

theorem offends_of_judgeTree (hfolder : w.Folder t.resolved)
    (h : ev.judgeTree w t = .ok (.block b)) : ev.Offends w t.resolved.parts b := by
  unfold judgeTree at h
  split at h
  · rename_i u hleaves
    obtain ⟨hbelow, hplace, hlist⟩ := World.leavesBelow_error hfolder hleaves
    have hpath : u.directory = ⟨.single, u.directory.parts⟩ := by rw [← hplace.1]
    rw [hpath] at hlist
    split at h
    · rename_i u' hobstacle
      rw [← Verdict.block.inj (Except.ok.inj h)]
      have hdirectory := World.path_of_obstacle hobstacle
      refine .folder u.directory.parts hbelow ?_ hplace.2 u.failure hlist rfl rfl
      rw [Guard.refuse, hdirectory, ← hpath]
    · exact absurd h nofun
  · rename_i leaves hleaves
    obtain ⟨p, hp, hjudge⟩ := judgeAll_block h
    obtain ⟨hpath, hbelow, e, hfind, hfile⟩ := leaf_of_mem hfolder hleaves hp
    rw [hpath] at hjudge
    have hnamed := path_of_judge hjudge
    rw [World.absolutePath_text (World.proper_of_find? hfind) rfl] at hnamed
    obtain ⟨o, heval, hverdict⟩ := (alone_iff hfind hfile).mp hjudge
    exact .leaf p.parts hbelow hnamed e hfind hfile o heval hverdict

/-- A directory may be removed with all in it just if every directory there is listed and everything
else is allowed alone. If it is refused, the refusal is that of one of them. -/
theorem allowed_tree_iff (hproper : ev.base.Proper) (habs : ev.base.isAbsolute = true)
    (h : ev.NamesTree w raw t) (hrecursive : flags.recursive = true) :
    ((∃ o, ev.evaluate w flags raw = .ok o ∧ o.allowed = true) ↔
      Listed w t.resolved.parts ∧ ev.AllowedAlone w t.resolved.parts) ∧
    ∀ o, ev.evaluate w flags raw = .ok o → o.blocked = true →
      ∃ b, o.verdict? = some (.block b) ∧ ev.Offends w t.resolved.parts b := by
  have hfolder := folder_of_namesTree hproper habs h
  rw [evaluate_tree h hrecursive, ← judgeTree_allow_iff hfolder]
  refine ⟨⟨?_, ?_⟩, ?_⟩
  · rintro ⟨o, heval, hallowed⟩
    obtain ⟨v, hjudge, rfl⟩ := World.map_eq_ok.mp heval
    cases v with
    | allow b =>
      obtain rfl := (judgeTree_allow hjudge).1
      exact hjudge
    | block b => exact absurd hallowed nofun
  · intro hjudge
    rw [hjudge]
    exact ⟨_, rfl, rfl⟩
  · intro o heval hblocked
    obtain ⟨v, hjudge, rfl⟩ := World.map_eq_ok.mp heval
    cases v with
    | allow b => exact absurd hblocked nofun
    | block b => exact ⟨b, rfl, offends_of_judgeTree hfolder hjudge⟩

def folderWorld : World where
  tree := FileTree.empty.put ["p", "d", "e", "f"] (.file ByteArray.empty .nothing)
  cwd := "/p"
  env := []
  users := []
  ownHome := none
  git := none
  trashError := none

theorem allowedAlone_folder : Listed folderWorld ["p", "d"] ∧
    (free (Path.ofString "/p")).AllowedAlone folderWorld ["p", "d"] := by
  have hseen : (folderWorld.resolve (Path.ofString "/p") "d").toOption.map
      (fun t => (t.isDir, t.resolved, t.isWithin (Path.ofString "/p"))) =
        some (true, Path.ofString "/p/d", true) := by decide +kernel
  have hallowed : ((free (Path.ofString "/p")).evaluate folderWorld ⟨true, false⟩
      "d").toOption.map Outcome.allowed = some true := by decide +kernel
  obtain ⟨t, h, hfound⟩ := World.toOption_map_eq_some.mp hseen
  obtain ⟨hdir, hrest⟩ := Prod.mk.inj hfound
  obtain ⟨hresolved, hwithin⟩ := Prod.mk.inj hrest
  obtain ⟨o, heval, ho⟩ := World.toOption_map_eq_some.mp hallowed
  have hnames : (free (Path.ofString "/p")).NamesTree folderWorld "d" t :=
    ⟨h, hdir, fun hslash => absurd hslash (by decide), hwithin, rfl⟩
  have hrecursive : (Flags.mk true false).recursive = true := rfl
  have htree := allowed_tree_iff (Path.proper_ofString "/p") (by decide) hnames hrecursive
  rw [hresolved] at htree
  exact htree.1.mp ⟨o, heval, ho⟩

end Evaluator
end DeletionGuard

import DeletionGuard.Proofs.Path.Recall

/-!
Components of resolved paths. What holds of `..`, of the components of a text, of those that links
spell and of those of the current directory holds of every component of the path that the text is
resolved to, also where resolution is stuck. So no path is refused as none at all in a world without
the character that no path can hold.
-/
namespace DeletionGuard
variable {P : String → Prop} {w : World} {p q here : Path} {s text target : String}
  {pieces rest : List String} {strict : Bool} {l : Location}

namespace Path

def Of (P : String → Prop) (p : Path) : Prop :=
  ∀ s ∈ p.parts, P s

theorem Of.nil (P : String → Prop) (root : Root) : Of P ⟨root, []⟩ :=
  nofun

theorem Of.parent (h : p.Of P) : p.parent.Of P :=
  fun s hs => h s (List.dropLast_subset _ hs)

theorem Of.child (h : p.Of P) (hs : P s) : (p.child s).Of P := by
  intro n hn
  obtain hn | hn := List.mem_append.mp hn
  · exact h n hn
  · rwa [List.mem_singleton.mp hn]

theorem Of.ascend (h : p.Of P) (hup : P "..") : p.ascend.Of P := by
  unfold Path.ascend
  split
  · exact h.parent
  · split
    · exact h.child hup
    · exact h.parent

theorem Of.join (hp : p.Of P) (hq : q.Of P) : (p.join q).Of P := by
  unfold Path.join
  split
  · exact hq
  · intro s hs
    obtain hs | hs := List.mem_append.mp hs
    · exact hp s hs
    · exact hq s hs

theorem Of.collapse (h : p.Of P) (hup : P "..") : p.collapse.Of P := by
  have hfold (parts : List String) (q : Path) (hparts : ∀ s ∈ parts, P s) (hq : q.Of P) :
      (parts.foldl (fun q s => if s = ".." then q.ascend else q.child s) q).Of P := by
    induction parts generalizing q with
    | nil => exact hq
    | cons s parts ih =>
      obtain ⟨hs, hparts⟩ := List.forall_mem_cons.mp hparts
      refine ih _ hparts ?_
      dsimp only
      split
      · exact hq.ascend hup
      · exact hq.child hs
  exact hfold p.parts ⟨p.root, []⟩ h (.nil P p.root)

end Path

def Text.Spells (P : String → Prop) (text : String) : Prop :=
  ∀ s ∈ Text.cut '/' text, Path.isPart s = true → P s

theorem Text.Spells.ofString (h : Text.Spells P text) : (Path.ofString text).Of P := by
  intro s hs
  obtain ⟨hcut, hpart⟩ := List.mem_filter.mp hs
  exact h s hcut hpart

def FileTree.NamesClean (t : FileTree) : Prop :=
  ∀ l e, t.find? l = some e → Path.Clean ⟨.single, l⟩

namespace World
open FileTree

/-- Something holds of all components that resolution takes from the world. -/
structure Admits (w : World) (P : String → Prop) : Prop where
  up : P ".."
  link : ∀ l target, w.tree.find? l = some (.link target) → Text.Spells P target
  cwd : ∀ text, w.getcwd = .ok text → (Path.ofString text).Of P

theorem of_remainder (h : ∀ s ∈ pieces, '/' ∉ s.toList ∧ (Path.isPart s = true → P s)) :
    (remainder pieces).Of P := by
  refine Text.Spells.ofString fun s hs hpart => ?_
  by_cases hnil : pieces = []
  · rw [hnil] at hs
    obtain rfl : s = "" := by simpa [Text.cut, Text.glue] using hs
    exact absurd hpart (by decide)
  · rw [Text.cut_glue hnil fun s hs => (h s hs).1] at hs
    exact (h s hs).2 hpart

theorem of_anchor (hup : P "..") (hcwd : ∀ text, w.getcwd = .ok text → (Path.ofString text).Of P)
    (hp : p.Of P) (h : w.anchor p = .ok q) : q.Of P := by
  unfold anchor at h
  split at h
  · rw [← Except.ok.inj h]
    exact hp.collapse hup
  · obtain ⟨cwd, hfound, rfl⟩ := map_eq_ok.mp h
    exact ((hcwd cwd hfound).join hp).collapse hup

def Progress.Of (P : String → Prop) : Progress → Prop
  | .reached q memo => q.Of P ∧ Memo.Holds (Path.Of P) memo
  | .stuck q => q.Of P

theorem Progress.Of.path {r : Progress} (h : r.Of P) : r.path.Of P := by
  cases r with
  | reached q memo => exact h.1
  | stuck q => exact h

/-- Resolution finds only such components, and refuses no text if no path can hold them. -/
structure Delivers (P : String → Prop) (x : Except Failure Progress) : Prop where
  parts : ∀ r, x = .ok r → r.Of P
  clean : (∀ s, P s → Text.holds Text.nul s = false) → x ≠ .error .nulInPath

theorem Delivers.ok {r : Progress} (h : r.Of P) : Delivers P (.ok r) :=
  ⟨fun _ hr => Except.ok.inj hr ▸ h, fun _ => nofun⟩

theorem link_of_glance (hglance : w.glance here s = .link target) :
    Path.isPart s = true ∧ ∃ l, w.tree.find? l = some (.link target) := by
  unfold glance at hglance
  split at hglance
  · exact absurd hglance nofun
  · rename_i hpart
    refine ⟨by simpa using hpart, ?_⟩
    split at hglance
    · exact absurd hglance nofun
    · split at hglance
      · rename_i target' hseen
        obtain ⟨l, -, hfind⟩ := entryAt_eq_ok.mp hseen
        exact ⟨l, Glance.link.inj hglance ▸ hfind⟩
      · exact absurd hglance nofun

theorem of_step (hadmits : w.Admits P) (hhere : here.Of P) (hs : Path.isPart s = true → P s)
    {next : Path} (hglance : w.glance here s = .step next) : next.Of P := by
  unfold glance at hglance
  split at hglance
  · rwa [← Glance.step.inj hglance]
  · rename_i hpart
    split at hglance
    · rw [← Glance.step.inj hglance]
      exact hhere.ascend hadmits.up
    · split at hglance
      · exact absurd hglance nofun
      · rw [← Glance.step.inj hglance]
        exact hhere.child (hs (by simpa using hpart))

theorem scan_delivers {enter : Path → String → Memo → Except Failure Progress}
    (hadmits : w.Admits P)
    (henter : ∀ here target memo, here.Of P → Memo.Holds (Path.Of P) memo →
      Text.Spells P target → Delivers P (enter here target memo))
    (hpieces : ∀ s ∈ pieces, '/' ∉ s.toList ∧ (Path.isPart s = true → P s)) (hhere : here.Of P)
    {memo : Memo} (hmemo : Memo.Holds (Path.Of P) memo) :
    Delivers P (w.scan false enter here pieces memo) := by
  induction pieces generalizing here memo with
  | nil => exact .ok ⟨hhere, hmemo⟩
  | cons s rest ih =>
    obtain ⟨⟨-, hs⟩, hrest⟩ := List.forall_mem_cons.mp hpieces
    cases hglance : w.glance here s with
    | step next =>
      obtain hstep | ⟨hseen, hpart, hnul⟩ := scan_step_cases hglance memo
      · rw [hstep]
        exact ih hrest (of_step hadmits hhere hs hglance) hmemo
      · rw [hnul]
        refine ⟨nofun, fun hclean => absurd hseen (entryAt_ne_nul fun n hn => hclean n ?_)⟩
        exact hhere.child (hs hpart) n hn
    | link target =>
      obtain ⟨hpart, l, hlink⟩ := link_of_glance hglance
      rw [scan_link hglance]
      split
      · rename_i known hlookup
        exact ih hrest (hmemo.lookup hlookup) hmemo
      · exact .ok ((hhere.child (hs hpart)).join (of_remainder hrest))
      · have hentered := henter here target _ hhere (hmemo.cons_none (here.child s))
          (hadmits.link l target hlink)
        split
        · rename_i f hf
          refine ⟨nofun, fun hclean hnul => hentered.clean hclean ?_⟩
          rw [hf, Except.error.inj hnul]
        · rename_i path hpath
          have hof : path.Of P := hentered.parts _ hpath
          exact .ok (hof.join (of_remainder hrest))
        · rename_i known memo' hknown
          obtain ⟨hof, hmemo'⟩ := hentered.parts _ hknown
          exact ih hrest hof (hmemo'.cons_some (here.child s) hof)

theorem resolveText_delivers {depth : Nat} (hadmits : w.Admits P) (htext : Text.Spells P text)
    (hhere : here.Of P) {memo : Memo} (hmemo : Memo.Holds (Path.Of P) memo) :
    Delivers P (w.resolveText false depth here text memo) := by
  induction depth generalizing here text memo with
  | zero => exact ⟨nofun, fun _ => nofun⟩
  | succ depth ih =>
    rw [resolveText]
    refine scan_delivers hadmits (fun here target memo hhere hmemo htarget =>
      ih htarget hhere hmemo) (fun s hs => ⟨Text.not_mem_of_mem_cut hs, htext s hs⟩) ?_ hmemo
    split
    · exact .nil P .single
    · exact hhere

theorem of_realPath (hadmits : w.Admits P) (htext : Text.Spells P p.text)
    (h : w.realPath strict p = .ok q) : q.Of P := by
  have hdelivers : Delivers P (w.resolveText false w.maxDepth ⟨.relative, []⟩ p.text []) :=
    resolveText_delivers hadmits htext (.nil P .relative) (.nil (Path.Of P))
  have hlenient {r : Progress}
      (hr : w.resolveText strict w.maxDepth ⟨.relative, []⟩ p.text [] = .ok r) : r.path.Of P := by
    cases strict with
    | false => exact (hdelivers.parts r hr).path
    | true => exact (hdelivers.parts r (resolveText_lenient hr)).path
  unfold realPath at h
  split at h
  · exact absurd h nofun
  · rename_i r memo hr
    exact of_anchor hadmits.up hadmits.cwd (hlenient hr) h
  · rename_i r hr
    exact of_anchor hadmits.up hadmits.cwd (hlenient hr) h

theorem admits_proper (w : World) :
    w.Admits fun s => Path.isPart s = true ∧ '/' ∉ s.toList where
  up := by decide
  link _ _ _ _ hs hpart := ⟨hpart, Text.not_mem_of_mem_cut hs⟩
  cwd text _ := Path.proper_ofString text

theorem isAbsolute_of_anchor (h : w.anchor p = .ok q) : q.isAbsolute = true := by
  unfold anchor at h
  split at h
  · rename_i habs
    rw [← Except.ok.inj h, Path.isAbsolute, Path.root_collapse]
    exact habs
  · obtain ⟨cwd, hcwd, rfl⟩ := map_eq_ok.mp h
    obtain ⟨l, -, hl⟩ := ofString_getcwd hcwd
    rw [Path.isAbsolute, Path.root_collapse, hl]
    exact Path.isAbsolute_join rfl p

theorem proper_of_realPath (h : w.realPath strict p = .ok q) :
    q.Proper ∧ q.isAbsolute = true := by
  refine ⟨of_realPath (admits_proper w)
    (fun s hs hpart => ⟨hpart, Text.not_mem_of_mem_cut hs⟩) h, ?_⟩
  unfold realPath at h
  split at h
  · exact absurd h nofun
  · exact isAbsolute_of_anchor h
  · exact isAbsolute_of_anchor h

theorem spells_clean (h : Text.holds Text.nul text = false) :
    Text.Spells (Text.holds Text.nul · = false) text :=
  fun _ hs _ => Text.not_holds_of_mem_cut h hs

theorem clean_cwd (hnames : w.tree.NamesClean) (h : w.getcwd = .ok text) :
    (Path.ofString text).Clean := by
  obtain ⟨l, hdir, hl⟩ := ofString_getcwd h
  obtain ⟨deny, hfind⟩ := isDir_iff.mp hdir
  rw [hl]
  exact hnames l _ hfind

theorem admits_clean (hnames : w.tree.NamesClean) (hlinks : w.LinksClean) :
    w.Admits (Text.holds Text.nul · = false) where
  up := by decide
  link l target hfind := spells_clean (hlinks l target hfind)
  cwd _ := clean_cwd hnames

theorem resolveStrict_ne_nul (hlinks : w.LinksClean) (hp : p.Clean) :
    w.resolveStrict p ≠ .error .nulInPath := by
  rw [resolveStrict, Ne, mapError_circular_eq_nul_iff, realPath]
  have hresolve : w.resolveText true w.maxDepth ⟨.relative, []⟩ p.text [] ≠ .error .nulInPath :=
    resolveText_ne_nul hlinks hp.not_holds_text (Path.Of.nil _ .relative) (.nil _)
  split
  · rename_i f hf
    rw [hf] at hresolve
    exact fun h => hresolve (congrArg Except.error (Except.error.inj h))
  · exact anchor_ne_nul
  · exact anchor_ne_nul

theorem resolveLenient_ne_nul (hnames : w.tree.NamesClean) (hlinks : w.LinksClean)
    (hp : p.Clean) : w.resolveLenient p ≠ .error .nulInPath := by
  have hadmits := admits_clean hnames hlinks
  have htext := spells_clean hp.not_holds_text
  have hresolve : Delivers (Text.holds Text.nul · = false)
      (w.resolveText false w.maxDepth ⟨.relative, []⟩ p.text []) :=
    resolveText_delivers hadmits htext (.nil _ .relative) (.nil _)
  have hreal : w.realPath false p ≠ .error .nulInPath := by
    rw [realPath]
    split
    · rename_i f hf
      intro h
      refine hresolve.clean (fun _ hs => hs) ?_
      rw [hf, Except.error.inj h]
    · exact anchor_ne_nul
    · exact anchor_ne_nul
  unfold resolveLenient
  cases hq : w.realPath false p with
  | error f =>
    intro h
    rw [hq] at hreal
    exact hreal (congrArg Except.error (circular_eq_nul_iff.mp (Except.error.inj h)))
  | ok q =>
    have hclean : q.Clean := of_realPath hadmits htext hq
    dsimp only
    split
    · rintro ⟨⟩
    · rename_i hseen
      exact absurd hseen (entryAt_ne_nul hclean)
    · rintro ⟨⟩

end World
end DeletionGuard

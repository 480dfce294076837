import DeletionGuard.Proofs.Run.Enumeration
import DeletionGuard.Proofs.Run.Failing

/-!
The listing of leaves as a loop. A directory is taken from those that are pending, its directories
are put in its place and its leaves are added to those found, until nothing is pending or a
directory is not listed. The places at or below pending directories get fewer with every step, so
the loop ends, and no run of it is longer than the tree has places: what it gives is what the
listing with a bound gives. The leaves are just those below the directory, each once, and a listing
is reported as incomplete just if the system does not list some directory there.
-/
namespace DeletionGuard.World
open FileTree
variable {w : World} {n : Nat} {p q d : Path} {pending leaves : List Path} {u : Unlistable}
  {r r' : Except Unlistable (List Path)} {f : Failure}

structure Sweep where
  pending : List Path
  found : List Path

namespace Sweep
variable {s s' : Sweep}

inductive Step (w : World) : Sweep → Sweep → Prop where
  | listed {d : Path} {pending found : List Path} {entries : List (String × Entry)}
      (h : w.list d.text = .ok entries) :
      Step w ⟨d :: pending, found⟩
        ⟨subdirectories d entries ++ pending, found ++ leavesIn d entries⟩

inductive Steps (w : World) : Nat → Sweep → Sweep → Prop where
  | refl (s : Sweep) : Steps w 0 s s
  | head {n : Nat} {s s' s'' : Sweep} (h : Step w s s') (hrest : Steps w n s' s'') :
      Steps w (n + 1) s s''

/-- What a listing comes to. Where a directory is not listed, all that was found is given up. -/
inductive Gives (w : World) : Sweep → Except Unlistable (List Path) → Prop where
  | done (found : List Path) : Gives w ⟨[], found⟩ (.ok found)
  | refused {d : Path} {pending found : List Path} {f : Failure}
      (h : w.list d.text = .error f) : Gives w ⟨d :: pending, found⟩ (.error ⟨d, f⟩)
  | step {s s' : Sweep} {r : Except Unlistable (List Path)} (h : Step w s s')
      (hrest : Gives w s' r) : Gives w s r

/-- With every step pending directories stay apart, and there are fewer places below them. -/
theorem Step.frontier (hfrontier : Frontier w s.pending) (h : Step w s s') :
    Frontier w s'.pending ∧ (ahead w.tree s'.pending).length < (ahead w.tree s.pending).length := by
  cases h with
  | listed h =>
    have hd := hfrontier.folder _ List.mem_cons_self
    obtain ⟨-, rfl⟩ := list_eq_ok (PartOf.refl _) hd.solid h
    exact ⟨hfrontier.step, length_ahead_lt hfrontier⟩

theorem Steps.length_le (hfrontier : Frontier w s.pending) (h : Steps w n s s') :
    n + (ahead w.tree s'.pending).length ≤ (ahead w.tree s.pending).length := by
  induction h with
  | refl => omega
  | head h _ ih =>
    obtain ⟨hnext, hlt⟩ := h.frontier hfrontier
    have hle := ih hnext
    omega

theorem Gives.unique (h : Gives w s r) (h' : Gives w s r') : r = r' := by
  induction h with
  | done found =>
    cases h' with
    | done => rfl
    | step h _ => cases h
  | refused hlist =>
    cases h' with
    | refused hlist' => rw [Except.error.inj (hlist.symm.trans hlist')]
    | step h _ =>
      cases h with
      | listed hlist' => exact absurd (hlist.symm.trans hlist') nofun
  | step h _ ih =>
    cases h with
    | listed hlist =>
      cases h' with
      | refused hlist' => exact absurd (hlist.symm.trans hlist') nofun
      | step h hrest =>
        cases h with
        | listed hlist' =>
          obtain rfl := Except.ok.inj (hlist.symm.trans hlist')
          exact ih hrest

/-- A bound that is not below what is ahead is never met. -/
theorem gives_gather (found : List Path) (hfrontier : Frontier w pending)
    (hn : (ahead w.tree pending).length ≤ n) :
    Gives w ⟨pending, found⟩ ((w.gather n pending).map (found ++ ·)) := by
  induction n generalizing pending found with
  | zero =>
    cases pending with
    | nil => simpa [gather, Except.map] using Gives.done (w := w) found
    | cons d pending =>
      have hlt := length_ahead_lt hfrontier
      omega
  | succ n ih =>
    cases pending with
    | nil => simpa [gather, Except.map] using Gives.done (w := w) found
    | cons d pending =>
      rw [gather]
      cases hlist : w.list d.text with
      | error f => exact .refused hlist
      | ok entries =>
        have hstep : Step w ⟨d :: pending, found⟩ _ := .listed hlist
        obtain ⟨hnext, hlt⟩ := hstep.frontier hfrontier
        have hmaps (x : Except Unlistable (List Path)) :
            (x.map (leavesIn d entries ++ ·)).map (found ++ ·) =
              x.map (found ++ leavesIn d entries ++ ·) := by
          cases x <;> simp [Except.map]
        rw [hmaps]
        exact .step hstep (ih _ hnext (Nat.le_of_lt_succ (Nat.lt_of_lt_of_le hlt hn)))

end Sweep

theorem nodup_leavesIn (p : Path) : (leavesIn p (w.tree.children p.parts)).Nodup := by
  have hnames := List.pairwise_map.mp (nodup_children w.tree p.parts)
  rw [leavesIn, List.Nodup, List.pairwise_map]
  refine (hnames.filter _).imp fun hne heq => hne ?_
  exact (List.append_singleton_inj.mp (Path.mk.inj heq).2).2

theorem disjoint_leavesIn (hfrontier : Frontier w (d :: pending))
    (hq : q ∈ leavesIn d (w.tree.children d.parts))
    (hp : p ∈ subdirectories d (w.tree.children d.parts) ++ pending) : ¬p.parts <+: q.parts := by
  obtain ⟨s, e, rfl, hfind, hfile⟩ := of_mem_leavesIn hq
  intro hbelow
  have hfolder := hfrontier.step.folder p hp
  have hne : p.parts ≠ (d.child s).parts := by
    intro heq
    obtain ⟨deny, hdir⟩ := isDir_iff.mp hfolder.2
    rw [heq, hfind] at hdir
    rw [Option.some.inj hdir] at hfile
    exact absurd hfile nofun
  obtain heq | habove := List.prefix_concat_iff.mp hbelow
  · exact hne heq
  · obtain hp | hp := List.mem_append.mp hp
    · obtain ⟨t, rfl, -⟩ := of_mem_subdirectories hp
      exact not_child_below d t habove
    · exact (List.pairwise_cons.mp hfrontier.apart).1 p hp |>.2 habove

theorem gather_nodup (hfrontier : Frontier w pending) (h : w.gather n pending = .ok leaves) :
    leaves.Nodup := by
  refine gather_induction (motive := fun _ leaves => leaves.Nodup) List.nodup_nil
    (fun n d pending others hfrontier _ hothers ih => ?_) hfrontier h
  refine List.nodup_append.mpr ⟨nodup_leavesIn d, ih, ?_⟩
  rintro q hq q' hq' rfl
  obtain ⟨p, hp, hbelow, -⟩ := gather_sound hfrontier.step hothers hq'
  exact disjoint_leavesIn hfrontier hq hp hbelow

theorem not_holds_nul_of_folder (hnames : w.tree.NamesClean) (hp : w.Folder p) :
    Text.holds Text.nul p.text = false := by
  obtain ⟨hroot, deny, hdir⟩ := And.imp_right isDir_iff.mp hp
  have hclean : Path.Clean ⟨.single, p.parts⟩ := hnames _ _ hdir
  exact Path.Clean.not_holds_text (p := p) hclean

theorem obstacle_of_list (hnul : Text.holds Text.nul p.text = false)
    (h : w.list p.text = .error f) : obstacle p f = .unverifiable ⟨p, f.errno?⟩ := by
  have hf : f ≠ .nulInPath := by
    rintro rfl
    obtain hsystem | ⟨-, hholds⟩ := reported_of_list h
    · exact absurd hsystem nofun
    · exact absurd (hholds.symm.trans hnul) nofun
  rw [obstacle, if_neg hf]

/-- A listing that is reported as incomplete gives no leaves; the report names a directory. -/
def Incomplete (w : World) (d p : Path) : Prop :=
  ∃ f, w.leavesBelow d = .error ⟨p, f⟩ ∧ obstacle p f = .unverifiable ⟨p, f.errno?⟩

def Unlisted (w : World) (d p : Path) : Prop :=
  w.Folder p ∧ d.parts <+: p.parts ∧ ∃ f, w.list p.text = .error f

/-- A listing is exact: it comes to an end, and either gives the leaves below a directory, each
once, or names a directory there that is not listed. -/
structure Exact (w : World) (d : Path) : Prop where
  bounded : ∀ n s, Sweep.Steps w n ⟨[d], []⟩ s → n ≤ w.tree.entries.length + 1
  gives : ∀ r, Sweep.Gives w ⟨[d], []⟩ r ↔ w.leavesBelow d = r
  once : ∀ leaves, w.leavesBelow d = .ok leaves → leaves.Nodup
  leaves : ∀ leaves, w.leavesBelow d = .ok leaves → ∀ q, q ∈ leaves ↔
    d.parts <+: q.parts ∧ q.root = .single ∧ ∃ e, w.tree.find? q.parts = some e ∧ e.isDir = false
  links : ∀ leaves, w.leavesBelow d = .ok leaves → ∀ q ∈ leaves, ∀ l target,
    w.tree.find? l = some (.link target) → l <+: q.parts → l = q.parts
  complete : (∃ leaves, w.leavesBelow d = .ok leaves) ↔ ¬∃ p, w.Unlisted d p
  fails : (∃ p, w.Incomplete d p) ↔ ∃ p, w.Unlisted d p
  named : ∀ p, w.Incomplete d p → w.Unlisted d p

theorem unlisted_of_error (hd : w.Folder d) (h : w.leavesBelow d = .error ⟨p, f⟩) :
    w.Unlisted d p ∧ w.list p.text = .error f := by
  obtain ⟨hbelow, hfolder, hlist⟩ := leavesBelow_error hd h
  exact ⟨⟨hfolder, hbelow, f, hlist⟩, hlist⟩

theorem exists_leaves_iff (hd : w.Folder d) :
    (∃ leaves, w.leavesBelow d = .ok leaves) ↔ ¬∃ p, w.Unlisted d p := by
  rw [leavesBelow_ok_iff hd]
  constructor
  · rintro hlisted ⟨p, hp, hbelow, f, hf⟩
    obtain ⟨entries, hentries⟩ := hlisted p.parts hbelow hp.2
    rw [← hp.1, hf] at hentries
    exact absurd hentries nofun
  · intro hnone m hbelow hdir
    cases hlist : w.list (Path.mk .single m).text with
    | ok entries => exact ⟨entries, rfl⟩
    | error f => exact absurd ⟨⟨.single, m⟩, ⟨rfl, hdir⟩, hbelow, f, hlist⟩ hnone

/-- The listing of leaves below a directory at its true place is exact, whatever links lie there and
whatever may not be read. -/
theorem exact_of_folder (hnames : w.tree.NamesClean) (hd : w.Folder d) : w.Exact d where
  bounded n s h := by
    have hle := h.length_le (frontier_singleton hd)
    have hahead := length_ahead_le w.tree [d]
    dsimp only at hle
    omega
  gives r := by
    have hgives := Sweep.gives_gather [] (frontier_singleton hd)
      (length_ahead_le w.tree [d])
    have hmap : (w.leavesBelow d).map ([] ++ ·) = w.leavesBelow d := by
      cases w.leavesBelow d <;> rfl
    rw [← leavesBelow, hmap] at hgives
    exact ⟨hgives.unique, fun h => h ▸ hgives⟩
  once _ h := gather_nodup (frontier_singleton hd) h
  leaves _ h _ := mem_leavesBelow hd h
  links _ h q hq l target hlink hbelow := by
    obtain ⟨-, -, e, hfind, -⟩ := (mem_leavesBelow hd h).mp hq
    refine eq_of_below hbelow hfind ?_
    rw [FileTree.isDir, hlink]
    rfl
  complete := exists_leaves_iff hd
  fails := by
    rw [← not_iff_not, ← exists_leaves_iff hd]
    constructor
    · intro hnone
      cases h : w.leavesBelow d with
      | ok leaves => exact ⟨leaves, rfl⟩
      | error u =>
        obtain ⟨⟨hfolder, -⟩, hlist⟩ := unlisted_of_error hd h
        have hnul := not_holds_nul_of_folder hnames hfolder
        exact absurd ⟨u.directory, _, h, obstacle_of_list hnul hlist⟩ hnone
    · rintro ⟨leaves, h⟩ ⟨p, f, h', -⟩
      cases h.symm.trans h'
  named p := by
    rintro ⟨f, h, -⟩
    exact (unlisted_of_error hd h).1

def tangledWorld : World where
  tree := FileTree.empty.put ["p", "a", "f"] (.file ByteArray.empty .nothing)
    |>.put ["p", "a", "up"] (.link "..")
    |>.put ["p", "s", "g"] (.file ByteArray.empty .nothing)
    |>.setDeny ["p", "s"] ⟨true, false, false⟩
  cwd := "/"
  env := []
  users := []
  ownHome := none
  git := none
  trashError := none

theorem exact_of_folder_tangled : tangledWorld.tree.NamesClean ∧
    tangledWorld.Folder ⟨.single, ["p"]⟩ ∧ tangledWorld.Exact ⟨.single, ["p"]⟩ ∧
    tangledWorld.Incomplete ⟨.single, ["p"]⟩ ⟨.single, ["p", "s"]⟩ ∧
    tangledWorld.leavesBelow ⟨.single, ["p", "a"]⟩ =
      .ok [⟨.single, ["p", "a", "f"]⟩, ⟨.single, ["p", "a", "up"]⟩] := by
  have hfolder : tangledWorld.Folder ⟨.single, ["p"]⟩ := ⟨rfl, by decide +kernel⟩
  have hnames : tangledWorld.tree.NamesClean := namesClean_iff.mpr (by decide +kernel)
  exact ⟨hnames, hfolder, exact_of_folder hnames hfolder, ⟨.call .noAccess "/p/s", rfl, by decide⟩,
    toOption_eq_some.mp (by decide +kernel)⟩

end DeletionGuard.World

import DeletionGuard.Proofs.Path.Agreement

/-!
Where a path is seated, also one that is seen from the current directory. Each `..` leads one
directory up and each name one further down, so a path without a link on its way stands for one
location, and a step of resolution keeps to it. What a path is resolved to in the strict form is
therefore where the system is led by it.
-/
namespace DeletionGuard

def settle (l : Location) (s : String) : Location :=
  if s = ".." then l.dropLast else l ++ [s]

theorem foldl_settle {parts : List String} (h : ∀ s ∈ parts, s ≠ "..") (l : Location) :
    parts.foldl settle l = l ++ parts := by
  induction parts generalizing l with
  | nil => exact (List.append_nil l).symm
  | cons s rest ih =>
    obtain ⟨hs, hrest⟩ := List.forall_mem_cons.mp h
    rw [List.foldl_cons, settle, if_neg hs, ih hrest, List.append_assoc, List.singleton_append]

theorem Path.collapse_single (parts : List String) :
    (Path.mk .single parts).collapse = ⟨.single, parts.foldl settle []⟩ := by
  have hfold (l : Location) : parts.foldl
      (fun q s => if s = ".." then q.ascend else q.child s) (Path.mk .single l) =
        ⟨.single, parts.foldl settle l⟩ := by
    induction parts generalizing l with
    | nil => rfl
    | cons s rest ih =>
      rw [List.foldl_cons, List.foldl_cons, settle]
      split
      · exact ih l.dropLast
      · exact ih (l ++ [s])
  exact hfold []

namespace FileTree
variable {t : FileTree} {l m : Location} {parts : List String}

end FileTree

namespace World
open FileTree
variable {w : World} {p q : Path} {l m start : Location} {s text : String} {e : Entry}

def base (w : World) : Location :=
  w.cwdLocation.toOption.getD []

def outset (w : World) (p : Path) : Location :=
  if p.isAbsolute then [] else w.base

@[simp] theorem outset_child (p : Path) (s : String) : w.outset (p.child s) = w.outset p :=
  rfl

/-- A path stands for a location: its components lead there, and none of them to a link. -/
structure Seated (w : World) (p : Path) (l : Location) : Prop where
  proper : p.Proper
  root : p.root = .relative ∨ p.root = .single ∧ ∀ s ∈ p.parts, s ≠ ".."
  solid : ∀ front, front <+: p.parts → w.tree.Solid (front.foldl settle (w.outset p))
  place : p.parts.foldl settle (w.outset p) = l

theorem solid_base (w : World) : w.tree.Solid w.base := by
  unfold base
  cases hcwd : w.cwdLocation with
  | error x => exact solid_nil w.tree
  | ok l =>
    have hstart : w.startOf "" = .ok l := hcwd
    exact solid_of_startOf hstart

namespace Seated

theorem relative (w : World) : w.Seated ⟨.relative, []⟩ w.base where
  proper := nofun
  root := .inl rfl
  solid front hfront := by
    rw [List.prefix_nil.mp hfront]
    exact solid_base w
  place := rfl

theorem top (w : World) : w.Seated ⟨.single, []⟩ [] where
  proper := nofun
  root := .inr ⟨rfl, nofun⟩
  solid front hfront := by
    rw [List.prefix_nil.mp hfront]
    exact solid_nil w.tree
  place := rfl

theorem here (h : w.Seated p l) : w.tree.Solid l := by
  rw [← h.place]
  exact h.solid p.parts (List.prefix_refl _)

theorem child (h : w.Seated p l) (hpart : Path.isPart s = true ∧ '/' ∉ s.toList)
    (hroot : p.root = .relative ∨ s ≠ "..") (hsolid : w.tree.Solid (settle l s)) :
    w.Seated (p.child s) (settle l s) where
  proper := h.proper.child hpart
  root := by
    obtain hrel | ⟨hroot', hnames⟩ := h.root
    · exact .inl hrel
    · refine .inr ⟨hroot', fun n hn => ?_⟩
      obtain hn | hn := List.mem_append.mp hn
      · exact hnames n hn
      · rw [List.mem_singleton.mp hn]
        exact hroot.resolve_left (by simp [hroot'])
  solid front hfront := by
    obtain rfl | hfront := List.prefix_concat_iff.mp hfront
    · rw [List.foldl_append, outset_child, h.place]
      exact hsolid
    · exact h.solid front hfront
  place := by
    rw [Path.parts_child, List.foldl_append, outset_child,
      h.place]
    rfl

theorem parent (h : w.Seated p l) (hne : p.parts ≠ []) (hlast : p.parts.getLast hne ≠ "..") :
    w.Seated p.parent l.dropLast where
  proper := h.proper.parent
  root := h.root.imp_right fun ⟨hroot, hnames⟩ =>
    ⟨hroot, fun s hs => hnames s (List.dropLast_subset _ hs)⟩
  solid front hfront := h.solid front (hfront.trans (List.dropLast_prefix _))
  place := by
    have hplace := h.place
    rw [← List.dropLast_concat_getLast hne, List.foldl_append, List.foldl_cons, List.foldl_nil,
      settle, if_neg hlast] at hplace
    rw [← hplace, List.dropLast_concat]
    rfl

theorem ascend (h : w.Seated p l) : w.Seated p.ascend l.dropLast := by
  have hdots : Path.isPart ".." = true ∧ '/' ∉ "..".toList := by decide
  unfold Path.ascend
  split
  · rename_i habs
    obtain hrel | ⟨hroot, hnames⟩ := h.root
    · simp [Path.isAbsolute, hrel] at habs
    · by_cases hne : p.parts = []
      · have hplace := h.place
        rw [hne, outset, if_pos habs] at hplace
        obtain ⟨root, parts⟩ := p
        obtain rfl : parts = [] := hne
        obtain rfl : root = .single := hroot
        rw [← hplace]
        exact .top w
      · exact h.parent hne (hnames _ (List.getLast_mem hne))
  · rename_i habs
    have hrel : p.root = .relative := by simpa [Path.isAbsolute] using habs
    split
    · exact h.child hdots (.inl hrel) h.here.dropLast
    · rename_i hlast
      have hne : p.parts ≠ [] := fun hnil => hlast (by simp [hnil])
      refine h.parent hne fun hup => hlast ?_
      rw [List.getLast?_eq_some_getLast hne, hup]
      simp

end Seated

theorem Seated.anchor (h : w.Seated p l) (hanchor : w.anchor p = .ok q) : q = ⟨.single, l⟩ := by
  have hplace := h.place
  unfold World.anchor at hanchor
  split at hanchor
  · rename_i habs
    obtain hrel | ⟨hroot, hnames⟩ := h.root
    · simp [Path.isAbsolute, hrel] at habs
    · rw [outset, if_pos habs, foldl_settle hnames, List.nil_append] at hplace
      rw [← Except.ok.inj hanchor, Path.collapse_eq_self hnames, ← hroot, ← hplace]
  · rename_i habs
    obtain ⟨cwd, hcwd, rfl⟩ := map_eq_ok.mp hanchor
    obtain ⟨c, hc, hdir, htext⟩ := cwdLocation_of_getcwd hcwd
    have hnames : ∀ s ∈ c, s ≠ ".." := fun s hs => ((solid_of_isDir hdir).names s hs).2.2.1
    have hbase : w.base = c := by rw [base, hc]; rfl
    rw [outset, if_neg habs, hbase] at hplace
    rw [htext, Path.join, if_neg habs, Path.collapse_single, List.foldl_append,
      foldl_settle hnames, List.nil_append, hplace]

end World
end DeletionGuard

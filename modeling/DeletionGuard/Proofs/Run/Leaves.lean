import DeletionGuard.Listing
import DeletionGuard.Proofs.Path.Place

/-!
The listing of leaves is complete: whatever lies below a listed directory and is no directory itself
is among the leaves, by its canonical path.
-/
namespace DeletionGuard.World
open FileTree
variable {w : World} {n : Nat} {p : Path} {pending leaves : List Path} {k m : Location} {e : Entry}

theorem mem_leavesIn {s : String} (hfind : w.tree.find? (p.parts ++ [s]) = some e)
    (hfile : e.isDir = false) : p.child s ∈ leavesIn p (w.tree.children p.parts) := by
  refine List.mem_map.mpr ⟨(s, e), List.mem_filter.mpr ⟨mem_children.mpr hfind, ?_⟩, rfl⟩
  simp [hfile]

theorem mem_subdirectories {s : String} (hdir : w.tree.isDir (p.parts ++ [s]) = true) :
    p.child s ∈ subdirectories p (w.tree.children p.parts) := by
  obtain ⟨deny, hfind⟩ := isDir_iff.mp hdir
  rw [subdirectories, List.mem_reverse]
  exact List.mem_map.mpr ⟨(s, .dir deny), List.mem_filter.mpr ⟨mem_children.mpr hfind, rfl⟩, rfl⟩

theorem rooted_of_mem_subdirectories {q : Path} (hp : Rooted w.tree.Solid p)
    (hq : q ∈ subdirectories p (w.tree.children p.parts)) : Rooted w.tree.Solid q := by
  rw [subdirectories, List.mem_reverse] at hq
  obtain ⟨⟨s, e⟩, he, rfl⟩ := List.mem_map.mp hq
  obtain ⟨hmem, hdir⟩ := List.mem_filter.mp he
  exact ⟨hp.1, e, mem_children.mp hmem, isLink_of_isDir hdir⟩

theorem gather_complete (hroot : ∀ p ∈ pending, Rooted w.tree.Solid p)
    (h : w.gather n pending = .ok leaves) (hp : p ∈ pending)
    (hfind : w.tree.find? (p.parts ++ k) = some e) (hfile : e.isDir = false) :
    ⟨.single, p.parts ++ k⟩ ∈ leaves := by
  induction n generalizing pending leaves p k with
  | zero =>
    cases pending with
    | nil => exact absurd hp List.not_mem_nil
    | cons d pending => exact absurd h nofun
  | succ n ih =>
    cases pending with
    | nil => exact absurd hp List.not_mem_nil
    | cons d pending =>
      have hd := hroot d List.mem_cons_self
      rw [gather] at h
      cases hlist : w.list d.text with
      | error f =>
        rw [hlist] at h
        cases h
      | ok entries =>
        rw [hlist] at h
        obtain ⟨others, hothers, rfl⟩ := map_eq_ok.mp h
        obtain ⟨hdir, rfl⟩ := list_eq_ok (PartOf.refl _) hd hlist
        have hroot' : ∀ q ∈ subdirectories d (w.tree.children d.parts) ++ pending,
            Rooted w.tree.Solid q := by
          intro q hq
          obtain hq | hq := List.mem_append.mp hq
          · exact rooted_of_mem_subdirectories hd hq
          · exact hroot q (List.mem_cons_of_mem d hq)
        obtain rfl | hp := List.mem_cons.mp hp
        · cases k with
          | nil =>
            rw [List.append_nil] at hfind
            rw [FileTree.isDir, hfind, Option.any_some, hfile] at hdir
            cases hdir
          | cons s k =>
            rw [List.append_cons] at hfind ⊢
            by_cases hk : k = []
            · subst hk
              rw [List.append_nil] at hfind ⊢
              have hleaf := mem_leavesIn hfind hfile
              rw [show p.child s = ⟨.single, p.parts ++ [s]⟩ by rw [Path.child, hd.1]] at hleaf
              exact List.mem_append_left _ hleaf
            · have hsub := mem_subdirectories (isDir_of_append hk hfind)
              exact List.mem_append_right _
                (ih hroot' hothers (List.mem_append_left _ hsub) hfind)
        · exact List.mem_append_right _ (ih hroot' hothers (List.mem_append_right _ hp) hfind)

theorem leavesBelow_complete (hp : Rooted w.tree.Solid p) (h : w.leavesBelow p = .ok leaves)
    (hbelow : p.parts <+: m) (hfind : w.tree.find? m = some e) (hfile : e.isDir = false) :
    ⟨.single, m⟩ ∈ leaves := by
  obtain ⟨k, rfl⟩ := hbelow
  refine gather_complete (fun q hq => ?_) h List.mem_cons_self hfind hfile
  rwa [List.mem_singleton.mp hq]

end DeletionGuard.World

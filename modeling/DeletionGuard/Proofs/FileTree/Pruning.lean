import DeletionGuard.Proofs.FileTree.Way
import Mathlib.Data.List.Basic

/-!
Trees from which entries were taken away, with the order of what is left. Which entries are missing
determines such a tree, so two ways of taking the same entries away lead to the same tree.
-/
namespace DeletionGuard.FileTree
variable {t t' t'' : FileTree} {l m : Location} {e : Entry} {gone gone' : Location → Bool}

/-- A tree is another one without the entries at some places; the others are as they were and in the
same order. -/
structure Pruned (gone : Location → Bool) (t t' : FileTree) : Prop where
  root : gone [] = false
  top : t'.top = t.top
  entries : t'.entries = t.entries.filter fun e => !gone e.1

namespace Pruned

theorem refl (t : FileTree) : Pruned (fun _ => false) t t :=
  ⟨rfl, rfl, (List.filter_true t.entries).symm⟩

theorem find? (h : Pruned gone t t') (l : Location) :
    t'.find? l = if gone l = true then none else t.find? l := by
  by_cases hl : l = []
  · rw [hl, h.root, find?_nil, find?_nil, h.top]
    simp
  · refine Option.ext fun e => ?_
    rw [find?_eq_some_iff hl, h.entries, List.mem_filter, ← find?_eq_some_iff hl]
    cases hgone : gone l <;> simp

theorem stays (h : Pruned gone t t') (hl : gone l = false) : t'.find? l = t.find? l := by
  rw [h.find?, hl]
  simp

theorem partOf (h : Pruned gone t t') : t'.PartOf t := by
  intro l e hfind
  rw [h.find?] at hfind
  split at hfind
  · exact absurd hfind nofun
  · exact hfind

theorem congr (h : Pruned gone t t') (hroot : gone' [] = false)
    (hsame : ∀ l e, t.find? l = some e → gone' l = gone l) : Pruned gone' t t' where
  root := hroot
  top := h.top
  entries := by
    rw [h.entries]
    refine List.filter_congr fun x hx => ?_
    have hne := (t.sound.named x hx).1
    rw [hsame x.1 x.2 ((find?_eq_some_iff hne).mpr hx)]

theorem unique (h : Pruned gone t t') (h' : Pruned gone t t'') : t' = t'' := by
  have htop : t'.top = t''.top := h.top.trans h'.top.symm
  have hentries : t'.entries = t''.entries := h.entries.trans h'.entries.symm
  cases t'
  cases t''
  cases htop
  cases hentries
  rfl

theorem trans (h : Pruned gone t t') (h' : Pruned gone' t' t'') :
    Pruned (fun l => gone l || gone' l) t t'' where
  root := by rw [h.root, h'.root]; rfl
  top := h'.top.trans h.top
  entries := by
    rw [h'.entries, h.entries, List.filter_filter]
    refine List.filter_congr fun x _ => ?_
    rw [Bool.not_or, Bool.and_comm]

theorem children (h : Pruned gone t t') (l : Location) :
    t'.children l = (t.children l).filter fun c => !gone (l ++ [c.1]) := by
  rw [FileTree.children, FileTree.children, h.entries, List.filterMap_filter,
    List.filter_filterMap]
  refine List.filterMap_congr fun x _ => ?_
  cases hx : (if x.1.dropLast = l then x.1.getLast?.map fun n => (n, x.2) else none) with
  | none => simp
  | some c =>
    rw [(location_of_listed hx).1]
    simp [Option.filter]

end Pruned

theorem pruned_erase (t : FileTree) (l : Location) :
    Pruned (fun m => !m.isEmpty && below l m) t (t.erase l) where
  root := rfl
  top := rfl
  entries := by
    refine List.filter_congr fun x hx => ?_
    have hne : x.1.isEmpty = false := by simpa using (t.sound.named x hx).1
    rw [hne]
    rfl

def lost (t t' : FileTree) (l : Location) : Bool :=
  (t.find? l).isSome && (t'.find? l).isNone

theorem lost_iff : lost t t' l = true ↔ t.Occupied l ∧ t'.find? l = none := by
  simp [lost, Occupied, Option.isSome_iff_exists]

theorem Pruned.lost (h : Pruned gone t t') : Pruned (lost t t') t t' := by
  refine h.congr ?_ fun l e hfind => ?_
  · simp [FileTree.lost]
  · rw [FileTree.lost, h.find?, hfind]
    cases gone l <;> simp

end DeletionGuard.FileTree

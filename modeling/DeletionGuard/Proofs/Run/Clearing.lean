import DeletionGuard.Proofs.FileTree.Pruning
import DeletionGuard.Proofs.Run.Calls

/-!
What the removal of a place takes away: all that lies there, or, where some of it cannot be taken
away, what comes before the first of that. Whatever can be taken away can be so in every tree that
holds it; so where only such entries are missing, the removal takes away what it does otherwise.
-/
namespace DeletionGuard.FileTree
variable {t t' : FileTree} {l m : Location} {S : Location → Bool}

/-- An entry can be taken away once nothing lies below it. A directory has to be listed for that. -/
structure Takes (t : FileTree) (l : Location) : Prop where
  yields : t.Yields l
  lists : t.isDir l = true → t.Lists l

def Removable (t : FileTree) (l : Location) : Prop :=
  ∀ m, l <+: m → t.Occupied m → t.Takes m

/-- The removal of a place takes away what lies at another one. -/
inductive Cleared (t : FileTree) : Location → Location → Prop where
  | whole {l m : Location} (hl : t.Removable l) (hbelow : l <+: m) (hm : t.Occupied m) :
      Cleared t l m
  | part {l m : Location} {front back : List (String × Entry)} {c : String × Entry}
      (hlists : t.Lists l) (hchildren : t.children l = front ++ c :: back)
      (hfront : ∀ x ∈ front, t.Removable (l ++ [x.1])) (hrest : Cleared t (l ++ [c.1]) m) :
      Cleared t l m

theorem open_iff_of_partOf (hpart : t'.PartOf t) (hocc : t'.Occupied l) : t'.Open l ↔ t.Open l := by
  obtain ⟨e, hfind⟩ := hocc
  constructor
  · intro h front s hfront
    obtain ⟨⟨deny, hdeny, hsearch⟩, hsize⟩ := h front s hfront
    exact ⟨⟨deny, hpart _ _ hdeny, hsearch⟩, hsize⟩
  · intro h front s hfront
    obtain ⟨⟨deny, hdeny, hsearch⟩, hsize⟩ := h front s hfront
    obtain ⟨rest, hrest⟩ := hfront
    rw [← hrest, List.append_assoc] at hfind
    obtain ⟨deny', hdeny'⟩ := isDir_iff.mp (isDir_of_append (by simp) hfind)
    rw [hpart _ _ hdeny'] at hdeny
    cases hdeny
    exact ⟨⟨deny, hdeny', hsearch⟩, hsize⟩

theorem yields_iff_of_partOf (hpart : t'.PartOf t) (hocc : t'.Occupied l) :
    t'.Yields l ↔ t.Yields l := by
  constructor
  · rintro ⟨hne, hfits, hway, deny, hdeny, hwrite⟩
    exact ⟨hne, hfits, (open_iff_of_partOf hpart hocc).mp hway, deny, hpart _ _ hdeny, hwrite⟩
  · rintro ⟨hne, hfits, hway, deny, hdeny, hwrite⟩
    obtain ⟨e, hfind⟩ := id hocc
    obtain ⟨deny', hdeny'⟩ := isDir_iff.mp (isDir_dropLast hfind)
    rw [hpart _ _ hdeny'] at hdeny
    cases hdeny
    exact ⟨hne, hfits, (open_iff_of_partOf hpart hocc).mpr hway, deny, hdeny', hwrite⟩

theorem lists_iff_of_partOf (hpart : t'.PartOf t) (hocc : t'.Occupied l) :
    t'.Lists l ↔ t.Lists l := by
  constructor
  · rintro ⟨hfits, hway, deny, hdeny, hread⟩
    exact ⟨hfits, (open_iff_of_partOf hpart hocc).mp hway, deny, hpart _ _ hdeny, hread⟩
  · rintro ⟨hfits, hway, deny, hdeny, hread⟩
    obtain ⟨e, hfind⟩ := id hocc
    rw [hpart _ _ hfind] at hdeny
    cases hdeny
    exact ⟨hfits, (open_iff_of_partOf hpart hocc).mpr hway, deny, hfind, hread⟩

theorem takes_iff_of_partOf (hpart : t'.PartOf t) (hocc : t'.Occupied l) :
    t'.Takes l ↔ t.Takes l := by
  have hdir : t'.isDir l = t.isDir l := by
    obtain ⟨e, hfind⟩ := hocc
    rw [isDir, isDir, hfind, hpart _ _ hfind]
  constructor
  · rintro ⟨hyields, hlists⟩
    refine ⟨(yields_iff_of_partOf hpart hocc).mp hyields, fun h => ?_⟩
    exact (lists_iff_of_partOf hpart hocc).mp (hlists (hdir.trans h))
  · rintro ⟨hyields, hlists⟩
    refine ⟨(yields_iff_of_partOf hpart hocc).mpr hyields, fun h => ?_⟩
    exact (lists_iff_of_partOf hpart hocc).mpr (hlists (hdir.symm.trans h))

theorem PartOf.occupied (hpart : t'.PartOf t) (hocc : t'.Occupied l) : t.Occupied l := by
  obtain ⟨e, hfind⟩ := hocc
  exact ⟨e, hpart _ _ hfind⟩

theorem Removable.of_partOf (h : t.Removable l) (hpart : t'.PartOf t) : t'.Removable l :=
  fun m hbelow hocc => (takes_iff_of_partOf hpart hocc).mpr (h m hbelow (hpart.occupied hocc))

theorem Removable.below (h : t.Removable l) (hbelow : l <+: m) : t.Removable m :=
  fun k hk => h k (hbelow.trans hk)

theorem Occupied.above (h : t.Occupied m) (hbelow : l <+: m) : t.Occupied l := by
  by_cases heq : l = m
  · rwa [heq]
  · obtain ⟨e, hfind⟩ := h
    exact occupied_of_isDir (isDir_of_below hbelow heq hfind)

theorem occupied_child {x : String × Entry} (h : x ∈ t.children l) : t.Occupied (l ++ [x.1]) :=
  ⟨x.2, mem_children.mp h⟩

namespace Cleared

theorem isBelow (h : t.Cleared l m) : l <+: m := by
  induction h with
  | whole _ hbelow _ => exact hbelow
  | part _ _ _ _ ih => exact (List.prefix_append _ _).trans ih

theorem occupied (h : t.Cleared l m) : t.Occupied m := by
  induction h with
  | whole _ _ hm => exact hm
  | part _ _ _ _ ih => exact ih

theorem takes (h : t.Cleared l m) : t.Takes m := by
  induction h with
  | whole hl hbelow hm => exact hl _ hbelow hm
  | part _ _ _ _ ih => exact ih

theorem closed {k : Location} (h : t.Cleared l m) (hbelow : m <+: k) (hk : t.Occupied k) :
    t.Cleared l k := by
  induction h with
  | whole hl hlm _ => exact .whole hl (hlm.trans hbelow) hk
  | part hlists hchildren hfront _ ih => exact .part hlists hchildren hfront (ih hbelow)

end Cleared

theorem cleared_self : t.Cleared l l ↔ t.Occupied l ∧ t.Removable l := by
  constructor
  · intro h
    refine ⟨h.occupied, ?_⟩
    cases h with
    | whole hl _ _ => exact hl
    | part _ _ _ hrest =>
      have hlength := hrest.isBelow.length_le
      rw [List.length_append, List.length_singleton] at hlength
      omega
  · rintro ⟨hocc, hl⟩
    exact .whole hl (List.prefix_refl l) hocc

theorem cleared_of_removable (hl : t.Removable l) :
    t.Cleared l m ↔ l <+: m ∧ t.Occupied m :=
  ⟨fun h => ⟨h.isBelow, h.occupied⟩, fun h => .whole hl h.1 h.2⟩

def BelowSome (t : FileTree) (l : Location) (some : List (String × Entry)) (m : Location) : Prop :=
  ∃ x ∈ some, l ++ [x.1] <+: m ∧ t.Occupied m

theorem cleared_of_stuck {front back : List (String × Entry)} {c : String × Entry}
    (hlists : t.Lists l) (hchildren : t.children l = front ++ c :: back)
    (hfront : ∀ x ∈ front, t.Removable (l ++ [x.1])) (hc : ¬t.Removable (l ++ [c.1])) :
    t.Cleared l m ↔ t.BelowSome l front m ∨ t.Cleared (l ++ [c.1]) m := by
  constructor
  · intro h
    cases h with
    | whole hl _ _ => exact absurd (hl.below (List.prefix_append _ _)) hc
    | @part _ _ front' back' c' _ hchildren' hfront' hrest =>
      rw [hchildren] at hchildren'
      obtain ⟨mid, rfl, hmid⟩ | ⟨mid, rfl, hmid⟩ := List.append_eq_append_iff.mp hchildren'
      · cases mid with
        | nil =>
          obtain ⟨rfl, -⟩ := List.cons.inj hmid
          exact .inr hrest
        | cons x mid =>
          obtain ⟨rfl, -⟩ := List.cons.inj hmid
          exact absurd (hfront' c (by simp)) hc
      · cases mid with
        | nil =>
          obtain ⟨rfl, -⟩ := List.cons.inj hmid
          exact .inr hrest
        | cons x mid =>
          obtain ⟨rfl, -⟩ := List.cons.inj hmid
          exact .inl ⟨c', by simp, hrest.isBelow, hrest.occupied⟩
  · rintro (⟨x, hx, hbelow, hocc⟩ | h)
    · obtain ⟨before, after, rfl⟩ := List.append_of_mem hx
      rw [List.append_assoc] at hchildren
      refine .part hlists hchildren (fun y hy => hfront y (by simp [hy])) ?_
      exact .whole (hfront x hx) hbelow hocc
    · exact .part hlists hchildren hfront h

theorem cleared_of_kept (hlists : t.Lists l)
    (hchildren : ∀ x ∈ t.children l, t.Removable (l ++ [x.1])) (hl : ¬t.Removable l) :
    t.Cleared l m ↔ t.BelowSome l (t.children l) m := by
  constructor
  · intro h
    cases h with
    | whole hl' _ _ => exact absurd hl' hl
    | @part _ _ front back c _ hsplit _ hrest =>
      exact ⟨c, by simp [hsplit], hrest.isBelow, hrest.occupied⟩
  · rintro ⟨x, hx, hbelow, hocc⟩
    obtain ⟨before, after, hsplit⟩ := List.append_of_mem hx
    refine .part hlists hsplit (fun y hy => hchildren y (by simp [hsplit, hy])) ?_
    exact .whole (hchildren x hx) hbelow hocc

theorem removable_of_children (hlists : t.Lists l)
    (hchildren : ∀ x ∈ t.children l, t.Removable (l ++ [x.1])) :
    t.Removable l ↔ t.Yields l := by
  constructor
  · intro h
    obtain ⟨deny, hdeny, -⟩ := hlists.readable
    exact (h l (List.prefix_refl l) ⟨_, hdeny⟩).yields
  · intro hyields m hbelow hocc
    obtain ⟨rest, rfl⟩ := hbelow
    cases rest with
    | nil =>
      rw [List.append_nil]
      exact ⟨hyields, fun _ => hlists⟩
    | cons s rest =>
      have hs : l ++ [s] <+: l ++ s :: rest := ⟨rest, by simp⟩
      obtain ⟨e, hfind⟩ := hocc.above hs
      exact hchildren (s, e) (mem_children.mpr hfind) _ hs hocc

/-- Places with all that lies below them, whose entries can be taken away. -/
structure Losable (S : Location → Bool) (t : FileTree) : Prop where
  closed : ∀ {l m}, S l = true → l <+: m → t.Occupied m → S m = true
  takes : ∀ {l}, S l = true → t.Occupied l → t.Takes l

theorem Losable.removable (h : Losable S t) (hl : S l = true) : t.Removable l :=
  fun _ hbelow hocc => h.takes (h.closed hl hbelow hocc) hocc

theorem Pruned.occupied_iff (h : Pruned S t t') : t'.Occupied l ↔ t.Occupied l ∧ S l = false := by
  unfold Occupied
  rw [h.find?]
  cases S l <;> simp

theorem Pruned.removable_iff (h : Pruned S t t') (hS : Losable S t) :
    t'.Removable l ↔ t.Removable l := by
  constructor
  · intro hl m hbelow hocc
    cases hm : S m with
    | true => exact hS.takes hm hocc
    | false =>
      have hocc' : t'.Occupied m := h.occupied_iff.mpr ⟨hocc, hm⟩
      exact (takes_iff_of_partOf h.partOf hocc').mp (hl m hbelow hocc')
  · exact fun hl => hl.of_partOf h.partOf

/-- Where entries are missing that can be taken away, a removal takes away what it does otherwise,
as far as it is still there. -/
theorem Pruned.cleared_iff (h : Pruned S t t') (hS : Losable S t) :
    t'.Cleared l m ↔ t.Cleared l m ∧ S m = false := by
  constructor
  · intro hm
    induction hm with
    | whole hl hbelow hocc =>
      obtain ⟨hocc, hm⟩ := h.occupied_iff.mp hocc
      exact ⟨.whole ((h.removable_iff hS).mp hl) hbelow hocc, hm⟩
    | @part l m front back c hlists hchildren hfront hrest ih =>
      obtain ⟨hcleared, hm⟩ := ih
      rw [h.children] at hchildren
      -- what is missing among the entries before the one that is entered is removable as well
      obtain ⟨before, after, hsplit, hbefore, hafter⟩ := List.filter_eq_append_iff.mp hchildren
      obtain ⟨gap, rest, rfl, hgap, -, -⟩ := List.filter_eq_cons_iff.mp hafter
      have hlists' : t.Lists l := by
        obtain ⟨deny, hdeny, -⟩ := hlists.readable
        exact (lists_iff_of_partOf h.partOf ⟨_, hdeny⟩).mp hlists
      refine ⟨.part hlists' (hsplit.trans (List.append_assoc before gap _).symm) ?_ hcleared, hm⟩
      intro x hx
      cases hS' : S (l ++ [x.1]) with
      | true => exact hS.removable hS'
      | false =>
        obtain hx | hx := List.mem_append.mp hx
        · refine (h.removable_iff hS).mp (hfront x ?_)
          rw [← hbefore]
          exact List.mem_filter.mpr ⟨hx, by simp [hS']⟩
        · have := hgap x hx
          simp [hS'] at this
  · rintro ⟨hm, hlost⟩
    induction hm with
    | whole hl hbelow hocc =>
      exact .whole (hl.of_partOf h.partOf) hbelow (h.occupied_iff.mpr ⟨hocc, hlost⟩)
    | @part l m front back c hlists hchildren hfront hrest ih =>
      have hc : S (l ++ [c.1]) = false := by
        cases hc : S (l ++ [c.1]) with
        | false => rfl
        | true =>
          rw [hS.closed hc hrest.isBelow hrest.occupied] at hlost
          exact absurd hlost nofun
      have hl : t'.Occupied l := by
        have hm' : t'.Occupied m := h.occupied_iff.mpr ⟨hrest.occupied, hlost⟩
        exact hm'.above ((List.prefix_append _ _).trans hrest.isBelow)
      have hchildren' : t'.children l = front.filter (fun x => !S (l ++ [x.1])) ++
          c :: back.filter fun x => !S (l ++ [x.1]) := by
        rw [h.children, hchildren, List.filter_append, List.filter_cons, hc]
        rfl
      refine .part ((lists_iff_of_partOf h.partOf hl).mpr hlists) hchildren' ?_ (ih hlost)
      intro x hx
      exact (hfront x (List.mem_filter.mp hx).1).of_partOf h.partOf

end DeletionGuard.FileTree
